import Lockstep.Proofs.Graph.Backtrack
import Lockstep.Proofs.Pattern.Language

/-!
# Backtracking over a pattern

A backtracking matcher tries the ways in which a pattern can match in an order of preference: the left
alternative before the right one, and one more iteration before leaving a greedy loop, but after leaving
a lazy one. What follows the pattern decides which of its successes is taken. In the graph of a pattern
whose loops consume something, the same successes are tried in the same order.
-/

namespace Lockstep

universe u

variable {α : Type u}

open Lockstep.Graph (withMarks Evaluates Forks)

namespace Pattern

/-! ## Successes in order -/

/-- Going on with `more` or leaving, as a quantifier prefers. -/
def choose (greedy : Bool) (more : List (Ahead × List Mark)) (bs : Ahead) : List (Ahead × List Mark) :=
  if greedy then more ++ [(bs, [])] else (bs, []) :: more

/-- The successes of a loop over `body`. An iteration that consumes nothing leads nowhere. -/
def iterate (greedy : Bool) (body : Ahead → List (Ahead × List Mark)) (bs : Ahead) :
    List (Ahead × List Mark) :=
  choose greedy
    ((body bs).flatMap fun r ↦
      if _h : r.1.length < bs.length then (iterate greedy body r.1).map (withMarks r.2) else [])
    bs
termination_by bs.length

/-- The mark of a group that has a number. -/
def groupMarks (number : Option Nat) (side : Side) (offset : Nat) : List Mark :=
  number.toList.map fun n ↦ ⟨side, n, offset⟩

/-- The successes of a pattern in the order in which a backtracking matcher tries them: where each one
stops, and the marks recorded on the way. -/
def results [Atom α] : Pattern α → Ahead → List (Ahead × List Mark)
  | .empty, bs => [(bs, [])]
  | .atom a, b :: rest => if b.next.any (Atom.accepts a) then [(rest, [])] else []
  | .atom _, [] => []
  | .assert a, b :: rest => if Atom.check a b.prev b.next then [(b :: rest, [])] else []
  | .assert _, [] => []
  | .concat p q, bs => (p.results bs).flatMap fun r ↦ (q.results r.1).map (withMarks r.2)
  | .alternate p q, bs => p.results bs ++ q.results bs
  | .zeroOrMore greedy p, bs => iterate greedy p.results bs
  | .oneOrMore greedy p, bs =>
    (p.results bs).flatMap fun r ↦ (iterate greedy p.results r.1).map (withMarks r.2)
  | .zeroOrOne greedy p, bs => choose greedy (p.results bs) bs
  | .group number p, bs => (p.results bs).map fun r ↦
    (r.1, groupMarks number .opening bs.offset ++ (r.2 ++ groupMarks number .closing r.1.offset))

/-! ## Loops that consume -/

/-- Whether a pattern may match without consuming anything. -/
def nullable : Pattern α → Bool
  | .empty | .assert _ | .zeroOrMore _ _ | .zeroOrOne _ _ => true
  | .atom _ => false
  | .concat p q => p.nullable && q.nullable
  | .alternate p q => p.nullable || q.nullable
  | .oneOrMore _ p | .group _ p => p.nullable

/-- Whether the operand of every loop consumes something. -/
def loopsConsume : Pattern α → Bool
  | .empty | .atom _ | .assert _ => true
  | .concat p q | .alternate p q => p.loopsConsume && q.loopsConsume
  | .zeroOrMore _ p | .oneOrMore _ p => !p.nullable && p.loopsConsume
  | .zeroOrOne _ p | .group _ p => p.loopsConsume

/-- All iterations of a loop count if its body consumes something. -/
theorem iterate_of_forall_lt (greedy : Bool) {body : Ahead → List (Ahead × List Mark)} {bs : Ahead}
    (h : ∀ r ∈ body bs, r.1.length < bs.length) :
    iterate greedy body bs = choose greedy
      ((body bs).flatMap fun r ↦ (iterate greedy body r.1).map (withMarks r.2)) bs := by
  rw [iterate, List.flatMap_def, List.flatMap_def]
  refine congrArg (choose greedy ·.flatten bs) (List.map_congr_left fun r hr ↦ ?_)
  rw [dif_pos (h r hr)]

variable [Atom α] {p : Pattern α} {bs stop : Ahead}

theorem mem_choose {greedy : Bool} {more : List (Ahead × List Mark)} {r : Ahead × List Mark} :
    r ∈ choose greedy more bs ↔ r ∈ more ∨ r = (bs, []) := by
  cases greedy <;> simp [choose, or_comm]

/-- The successes of a loop repeat its body. -/
theorem repeats_of_mem_iterate {greedy : Bool} {body : Ahead → List (Ahead × List Mark)}
    {R : Ahead → Ahead → Prop} (hbody : ∀ bs, ∀ r ∈ body bs, R bs r.1) {r : Ahead × List Mark}
    (hr : r ∈ iterate greedy body bs) : Repeats R bs r.1 := by
  induction h : bs.length using Nat.strongRecOn generalizing bs r with | _ n ih
  subst h
  rw [iterate, mem_choose] at hr
  rcases hr with hr | rfl
  · obtain ⟨x, hx, hr⟩ := List.mem_flatMap.mp hr
    split at hr
    · rename_i hlt
      obtain ⟨y, hy, rfl⟩ := List.mem_map.mp hr
      exact .more (hbody bs x hx) (ih _ hlt (r := y) hy rfl)
    · cases hr
  · exact .none bs

/-- A success is a match. -/
theorem matches_of_mem_results {r : Ahead × List Mark} (hr : r ∈ p.results bs) :
    p.Matches bs r.1 := by
  induction p generalizing bs r with
  | empty =>
    cases List.mem_singleton.mp hr
    rfl
  | atom a =>
    cases bs with
    | nil => cases hr
    | cons b rest =>
      rw [results] at hr
      split at hr
      · rename_i haccepts
        cases List.mem_singleton.mp hr
        obtain ⟨c, hc, haccepts⟩ := (Option.any_eq_true _ _).mp haccepts
        exact ⟨b, c, rfl, hc, haccepts⟩
      · cases hr
  | assert a =>
    cases bs with
    | nil => cases hr
    | cons b rest =>
      rw [results] at hr
      split at hr
      · rename_i hcheck
        cases List.mem_singleton.mp hr
        exact ⟨rfl, b, rest, rfl, hcheck⟩
      · cases hr
  | concat p q ihp ihq =>
    obtain ⟨x, hx, hr⟩ := List.mem_flatMap.mp hr
    obtain ⟨y, hy, rfl⟩ := List.mem_map.mp hr
    exact ⟨x.1, ihp hx, ihq (r := y) hy⟩
  | alternate p q ihp ihq => exact (List.mem_append.mp hr).imp ihp ihq
  | zeroOrMore greedy p ih => exact repeats_of_mem_iterate (fun _ _ ↦ ih) hr
  | oneOrMore greedy p ih =>
    obtain ⟨x, hx, hr⟩ := List.mem_flatMap.mp hr
    obtain ⟨y, hy, rfl⟩ := List.mem_map.mp hr
    exact ⟨x.1, ih hx, repeats_of_mem_iterate (r := y) (fun _ _ ↦ ih) hy⟩
  | zeroOrOne greedy p ih =>
    rcases mem_choose.mp hr with hr | rfl
    · exact .inr (ih hr)
    · exact .inl rfl
  | group number p ih =>
    obtain ⟨x, hx, rfl⟩ := List.mem_map.mp hr
    exact ih (r := x) hx

/-- A match of a pattern that is not nullable consumes something. -/
theorem length_lt_of_matches (hnullable : p.nullable = false) (h : p.Matches bs stop) :
    stop.length < bs.length := by
  induction p generalizing bs stop with
  | empty => cases hnullable
  | atom a =>
    obtain ⟨b, c, rfl, -⟩ := h
    exact Nat.lt_succ_self _
  | assert a => cases hnullable
  | concat p q ihp ihq =>
    obtain ⟨mid, hp, hq⟩ := h
    have hmid := (suffix_of_matches hp).length_le
    have hstop := (suffix_of_matches hq).length_le
    rcases Bool.and_eq_false_iff.mp hnullable with hnullable | hnullable
    · exact Nat.lt_of_le_of_lt hstop (ihp hnullable hp)
    · exact Nat.lt_of_lt_of_le (ihq hnullable hq) hmid
  | alternate p q ihp ihq =>
    obtain ⟨hnp, hnq⟩ := Bool.or_eq_false_iff.mp hnullable
    exact h.elim (ihp hnp) (ihq hnq)
  | zeroOrMore greedy p ih => cases hnullable
  | oneOrMore greedy p ih =>
    obtain ⟨mid, hp, hrest⟩ := h
    have hstop := (suffix_of_matches (p := .zeroOrMore greedy p) hrest).length_le
    exact Nat.lt_of_le_of_lt hstop (ih hnullable hp)
  | zeroOrOne greedy p ih => cases hnullable
  | group number p ih => exact ih hnullable h

theorem length_lt_of_mem_results (hnullable : p.nullable = false) {r : Ahead × List Mark}
    (hr : r ∈ p.results bs) : r.1.length < bs.length :=
  length_lt_of_matches hnullable (matches_of_mem_results hr)

/-! ## The successes in a graph -/

/-- What follows the first success that it succeeds after, with the marks of both. -/
def firstOnward (onward : Ahead → Option (Ahead × List Mark)) (l : List (Ahead × List Mark)) :
    Option (Ahead × List Mark) :=
  l.findSome? fun r ↦ (onward r.1).map (withMarks r.2)

section

variable {onward : Ahead → Option (Ahead × List Mark)} {l l' : List (Ahead × List Mark)}

theorem firstOnward_cons (r : Ahead × List Mark) : firstOnward onward (r :: l) =
    ((onward r.1).map (withMarks r.2)).or (firstOnward onward l) := by
  rw [firstOnward, List.findSome?_cons]
  cases (onward r.1).map (withMarks r.2) <;> rfl

theorem firstOnward_append : firstOnward onward (l ++ l') =
    (firstOnward onward l).or (firstOnward onward l') := List.findSome?_append

@[simp] theorem firstOnward_singleton (bs : Ahead) : firstOnward onward [(bs, [])] = onward bs := by
  rw [firstOnward, List.findSome?_singleton]
  exact Graph.withMarks_nil _

theorem withMarks_withMarks (marks marks' : List Mark) (r : Ahead × List Mark) :
    withMarks marks (withMarks marks' r) = withMarks (marks ++ marks') r := by
  simp [withMarks]

/-- The marks of a success come before those of what follows. -/
theorem firstOnward_map (marks : List Mark) :
    firstOnward onward (l.map (withMarks marks)) = (firstOnward onward l).map (withMarks marks) := by
  rw [firstOnward, firstOnward, List.findSome?_map, List.map_findSome?]
  apply congrArg (List.findSome? · l)
  funext r
  rw [Function.comp_apply, Function.comp_apply, Option.map_map]
  exact congrArg (Option.map · _) (funext fun x ↦ (withMarks_withMarks _ _ _).symm)

/-- Successes after successes may be tried one by one. -/
theorem firstOnward_flatMap (successes : Ahead → List (Ahead × List Mark)) :
    firstOnward onward (l.flatMap fun r ↦ (successes r.1).map (withMarks r.2)) =
      firstOnward (fun bs ↦ firstOnward onward (successes bs)) l := by
  induction l with
  | nil => rfl
  | cons r l ih =>
    rw [List.flatMap_cons, firstOnward_append, ih, firstOnward_map, firstOnward_cons]

end

/-- The nodes from `head` to `exit` try `successes` in order: what is found from the head is what is
found from the exit after the first success for which there is something to find. -/
def Tries (nodes : Array (Node α)) (head exit : Nat) (successes : Ahead → List (Ahead × List Mark)) :
    Prop :=
  ∀ bs onward, (∀ r ∈ successes bs, Evaluates nodes exit r.1 (onward r.1)) →
    Evaluates nodes head bs (firstOnward onward (successes bs))

namespace Tries

variable {nodes : Array (Node α)} {head mid exit left right body loop : Nat} {greedy : Bool}
  {successes successes' : Ahead → List (Ahead × List Mark)} {node : Node α} {bs : Ahead}
  {onward : Ahead → Option (Ahead × List Mark)} {l l' : List (Ahead × List Mark)}

theorem congr (h : Tries nodes head exit successes) (heq : ∀ bs, successes bs = successes' bs) :
    Tries nodes head exit successes' := funext heq ▸ h

theorem concat (h : Tries nodes head mid successes) (h' : Tries nodes mid exit successes') :
    Tries nodes head exit fun bs ↦ (successes bs).flatMap fun r ↦
      (successes' r.1).map (withMarks r.2) := by
  intro bs onward honward
  rw [firstOnward_flatMap]
  refine h bs _ fun r hr ↦ h' r.1 onward fun r' hr' ↦ ?_
  exact honward (withMarks r.2 r') (List.mem_flatMap.mpr ⟨r, hr, List.mem_map_of_mem hr'⟩)

/-- A node that consumes and tests nothing records its marks. -/
theorem passing (hhead : head ≠ Graph.final) (hnode : nodes[head]? = some node)
    (hcons : node.isConsuming = false) (hassert : node.kind.assertion? = none)
    (hout : node.out = [exit]) :
    Tries nodes head exit fun bs ↦
      [(bs, (Graph.passing node head).map fun m ↦ ⟨m.1, m.2, bs.offset⟩)] := by
  intro bs onward honward
  have hexit : Evaluates nodes exit bs (onward bs) := honward _ (List.mem_singleton_self _)
  rw [firstOnward, List.findSome?_singleton]
  exact .of_passing hhead hnode hcons hassert (hout ▸ hexit.first)

/-- A node with two successors tries one after the other. -/
theorem evaluates_append (hhead : Forks nodes head [left, right])
    (hl : Evaluates nodes left bs (firstOnward onward l))
    (hr : Evaluates nodes right bs (firstOnward onward l')) :
    Evaluates nodes head bs (firstOnward onward (l ++ l')) := by
  rw [firstOnward_append]
  exact hhead.evaluates (hl.first_or hr)

/-- A quantifier goes on or leaves, as it prefers. -/
theorem evaluates_choose (hhead : Forks nodes head (branches greedy body exit))
    (hbody : Evaluates nodes body bs (firstOnward onward l))
    (hexit : Evaluates nodes exit bs (onward bs)) :
    Evaluates nodes head bs (firstOnward onward (choose greedy l bs)) := by
  have hleave : firstOnward onward [(bs, [])] = onward bs := firstOnward_singleton bs
  rw [← hleave] at hexit
  cases greedy with
  | true => exact evaluates_append hhead hbody hexit
  | false => exact evaluates_append hhead hexit hbody

theorem alternate (hhead : Forks nodes head [left, right]) (hleft : Tries nodes left exit successes)
    (hright : Tries nodes right exit successes') :
    Tries nodes head exit fun bs ↦ successes bs ++ successes' bs := fun bs onward honward ↦
  evaluates_append hhead (hleft bs onward fun r hr ↦ honward r (List.mem_append_left _ hr))
    (hright bs onward fun r hr ↦ honward r (List.mem_append_right _ hr))

theorem zeroOrOne (hhead : Forks nodes head (branches greedy body exit))
    (hbody : Tries nodes body exit successes) :
    Tries nodes head exit fun bs ↦ choose greedy (successes bs) bs := fun bs onward honward ↦
  evaluates_choose hhead (hbody bs onward fun r hr ↦ honward r (mem_choose.mpr (.inl hr)))
    (honward (bs, []) (mem_choose.mpr (.inr rfl)))

/-- A loop over a body that consumes something tries its iterations in order. -/
theorem iterations (hloop : Forks nodes loop (branches greedy body exit))
    (hconsumes : ∀ bs, ∀ r ∈ successes bs, r.1.length < bs.length)
    (hbody : Tries nodes body loop successes) :
    Tries nodes loop exit (iterate greedy successes) := by
  intro bs onward honward
  induction h : bs.length using Nat.strongRecOn generalizing bs with | _ n ih
  subst h
  have hiterate := iterate_of_forall_lt greedy (hconsumes bs)
  rw [hiterate] at honward ⊢
  refine evaluates_choose hloop ?_ (honward (bs, []) (mem_choose.mpr (.inr rfl)))
  rw [firstOnward_flatMap]
  refine hbody bs _ fun r hr ↦ ih r.1.length (hconsumes bs r hr) r.1 (fun r' hr' ↦ ?_) rfl
  exact honward (withMarks r.2 r')
    (mem_choose.mpr (.inl (List.mem_flatMap.mpr ⟨r, hr, List.mem_map_of_mem hr'⟩)))

/-- A group records its marks around its body. -/
theorem group {close : Nat} {onOpen onClose : Nat → List Mark}
    (hopen : Tries nodes head body fun bs ↦ [(bs, onOpen bs.offset)])
    (hbody : Tries nodes body close successes)
    (hclose : Tries nodes close exit fun bs ↦ [(bs, onClose bs.offset)]) :
    Tries nodes head exit fun bs ↦ (successes bs).map fun r ↦
      (r.1, onOpen bs.offset ++ (r.2 ++ onClose r.1.offset)) := by
  refine (hopen.concat (hbody.concat hclose)).congr fun bs ↦ ?_
  rw [List.flatMap_singleton, List.map_flatMap]
  exact List.map_eq_flatMap.symm

/-- A node that takes a character tries to go on after it. -/
theorem atom {a : α} (hhead : head ≠ Graph.final)
    (hnode : nodes[head]? = some { Node.atom a with out := [exit] }) :
    Tries nodes head exit (Pattern.atom a).results := by
  intro bs onward honward
  cases bs with
  | nil => exact .nil nodes head
  | cons b rest =>
    have hadmits : Graph.admits nodes head b.next = b.next.any (Atom.accepts a) := by
      unfold Graph.admits
      rw [hnode, beq_false_of_ne hhead]
      cases b.next <;> rfl
    rw [results] at honward ⊢
    by_cases haccepts : b.next.any (Atom.accepts a) = true
    · rw [if_pos haccepts] at honward ⊢
      rw [firstOnward_singleton]
      have hexit := (honward _ (List.mem_singleton_self _)).first
      exact .of_admits hhead hnode rfl (hadmits.trans haccepts) hexit
    · rw [if_neg haccepts]
      exact .of_not_admits hhead hnode rfl (hadmits ▸ haccepts)

/-- A node that asserts something tries to go on at the same boundary. -/
theorem assert {a : α} (hhead : head ≠ Graph.final)
    (hnode : nodes[head]? = some { Node.assert a with out := [exit] }) :
    Tries nodes head exit (Pattern.assert a).results := by
  intro bs onward honward
  cases bs with
  | nil => exact .nil nodes head
  | cons b rest =>
    have hholds : Graph.holdsAt nodes b head = Atom.check a b.prev b.next := by
      rw [Graph.holdsAt, hnode]
      rfl
    rw [results] at honward ⊢
    by_cases hcheck : Atom.check a b.prev b.next = true
    · rw [if_pos hcheck] at honward ⊢
      rw [firstOnward_singleton]
      have hexit := (honward _ (List.mem_singleton_self _)).first
      exact Graph.withMarks_nil (onward (b :: rest)) ▸
        Evaluates.of_holds hhead hnode rfl (hholds.trans hcheck) hexit
    · rw [if_neg hcheck]
      exact .of_not_holds hhead hnode rfl (hholds ▸ hcheck)

end Tries

/-- The nodes of a pattern whose loops consume something try its successes in order. -/
theorem Wired.tries {nodes : Array (Node α)} {p : Pattern α} {head exit : Nat}
    (hfinal : ∃ node, nodes[Graph.final]? = some node ∧ node.kind = .final)
    (h : p.Wired nodes head exit) (hloops : p.loopsConsume = true) :
    Tries nodes head exit p.results := by
  have hid {id : Nat} {node : Node α} (hnode : nodes[id]? = some node) (hkind : node.kind ≠ .final) :
      id ≠ Graph.final := Graph.ne_final_of_kind hfinal hnode hkind
  induction p generalizing head exit with
  | empty => exact .passing (hid h (by rintro ⟨⟩)) h rfl rfl rfl
  | atom a => exact .atom (hid h (by rintro ⟨⟩)) h
  | assert a => exact .assert (hid h (by rintro ⟨⟩)) h
  | concat p q ihp ihq =>
    obtain ⟨mid, hp, hq⟩ := h
    obtain ⟨hlp, hlq⟩ := Bool.and_eq_true_iff.mp hloops
    exact (ihp hp hlp).concat (ihq hq hlq)
  | alternate p q ihp ihq =>
    obtain ⟨left, right, hnode, hp, hq⟩ := h
    obtain ⟨hlp, hlq⟩ := Bool.and_eq_true_iff.mp hloops
    exact .alternate ⟨hid hnode (by rintro ⟨⟩), _, hnode, rfl, rfl, rfl, rfl⟩ (ihp hp hlp) (ihq hq hlq)
  | zeroOrMore greedy p ih =>
    obtain ⟨body, hnode, hp⟩ := h
    obtain ⟨hnp, hlp⟩ := Bool.and_eq_true_iff.mp hloops
    have hconsumes : ∀ bs, ∀ r ∈ p.results bs, r.1.length < bs.length := fun _ _ ↦
      length_lt_of_mem_results (by simpa using hnp)
    exact .iterations ⟨hid hnode (by rintro ⟨⟩), _, hnode, rfl, rfl, rfl, rfl⟩ hconsumes (ih hp hlp)
  | oneOrMore greedy p ih =>
    obtain ⟨loop, hnode, hp⟩ := h
    obtain ⟨hnp, hlp⟩ := Bool.and_eq_true_iff.mp hloops
    have hconsumes : ∀ bs, ∀ r ∈ p.results bs, r.1.length < bs.length := fun _ _ ↦
      length_lt_of_mem_results (by simpa using hnp)
    have hloop : Forks nodes loop (branches greedy head exit) :=
      ⟨hid hnode (by rintro ⟨⟩), _, hnode, rfl, rfl, rfl, rfl⟩
    exact (ih hp hlp).concat (.iterations hloop hconsumes (ih hp hlp))
  | zeroOrOne greedy p ih =>
    obtain ⟨body, hnode, hp⟩ := h
    exact .zeroOrOne ⟨hid hnode (by rintro ⟨⟩), _, hnode, rfl, rfl, rfl, rfl⟩ (ih hp hloops)
  | group number p ih =>
    obtain ⟨body, close, hopen, hp, hclose⟩ := h
    have hopening : Tries nodes head body fun bs ↦ [(bs, groupMarks number .opening bs.offset)] :=
      (Tries.passing (hid hopen (by rintro ⟨⟩)) hopen rfl rfl rfl).congr fun bs ↦ by
        cases number <;> rfl
    have hclosing : Tries nodes close exit fun bs ↦ [(bs, groupMarks number .closing bs.offset)] :=
      (Tries.passing (hid hclose (by rintro ⟨⟩)) hclose rfl rfl rfl).congr fun bs ↦ by
        cases number <;> rfl
    exact .group hopening (ih hp hloops) hclosing

end Pattern

end Lockstep

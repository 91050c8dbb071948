import Lockstep.Proofs.Matches
import Lockstep.Proofs.Pattern.Compiled
import Lockstep.Proofs.Pattern.Reply

/-!
# Two ways to write a loop

`p*` may leave before its first iteration, and so may `(p+)?`. Their graphs share the nodes of `p` and the
loop, and a search of either finds what `p` replies, or a match where it leaves. The two differ in what
`p` is told about its exit: that nothing is found there in `p*`, as the loop is a node that has been
passed, and that the match ends there in `(p+)?`.

That makes no difference to a lazy loop, which leaves at once, nor to a greedy one if `p` asks its exit
last: then leaving the loop comes next in either case. It does make a difference if an alternative that
consumes something comes after one that consumes nothing, or if a group is closed on the way.
-/

namespace Lockstep

universe u

variable {α : Type u}

namespace Pattern

open Lockstep.Graph (withMarks_nil)

/-! ## Asking the exit last -/

/-- Whether a pattern has no atom, so that it never consumes anything. -/
def atomless : Pattern α → Bool
  | .empty | .assert _ => true
  | .atom _ => false
  | .concat p q | .alternate p q => p.atomless && q.atomless
  | .zeroOrMore _ p | .oneOrMore _ p | .zeroOrOne _ p | .group _ p => p.atomless

/-- Whether a pattern is built so that its ways that consume nothing come after all those that consume
something, and record no group. A way that is tried a second time does not count. -/
def idlesLast : Pattern α → Bool
  | .empty | .atom _ | .assert _ => true
  | .concat p q => !(p.nullable && q.nullable) || p.idlesLast && q.idlesLast
  | .alternate p q => (!p.nullable || q.atomless) && (p.idlesLast && q.idlesLast)
  | .zeroOrMore greedy p => greedy || p.atomless
  | .oneOrMore _ p => p.idlesLast
  | .zeroOrOne greedy p => (greedy || p.atomless) && p.idlesLast
  | .group number p => !p.nullable || number.isNone && p.idlesLast

/-- There is nothing to put last if a pattern is not nullable. -/
theorem idlesLast_of_nullable_eq_false {p : Pattern α} (hnullable : p.nullable = false) :
    p.idlesLast = true := by
  induction p with
  | empty => cases hnullable
  | atom a => rfl
  | assert a => cases hnullable
  | concat p q ihp ihq =>
    rw [nullable] at hnullable
    rw [idlesLast, hnullable, Bool.not_false, Bool.true_or]
  | alternate p q ihp ihq =>
    obtain ⟨hp, hq⟩ := Bool.or_eq_false_iff.mp hnullable
    rw [idlesLast, hp, ihp hp, ihq hq]
    rfl
  | zeroOrMore greedy p ih => cases hnullable
  | oneOrMore greedy p ih => exact ih hnullable
  | zeroOrOne greedy p ih => cases hnullable
  | group number p ih =>
    rw [nullable] at hnullable
    rw [idlesLast, hnullable, Bool.not_false, Bool.true_or]

/-- What `f` finds without its argument comes first, and after it the argument or nothing. -/
def Defers {β : Type} (f : Option β → Option β) : Prop :=
  ∃ idle : Bool, ∀ leave, f leave = (f none).or (if idle then leave else none)

namespace Defers

variable {β : Type} {f f' : Option β → Option β}

theorem id : Defers fun leave : Option β ↦ leave := ⟨true, fun _ ↦ Option.none_or.symm⟩

theorem const (h : ∀ leave, f leave = f none) : Defers f :=
  ⟨false, fun leave ↦ (h leave).trans Option.or_none.symm⟩

theorem comp (h : Defers f) (h' : Defers f') : Defers fun leave ↦ f (f' leave) := by
  obtain ⟨idle, h⟩ := h
  obtain ⟨idle', h'⟩ := h'
  cases idle with
  | false => exact .const fun leave ↦ (h (f' leave)).trans (h (f' none)).symm
  | true =>
    refine ⟨idle', fun leave ↦ ?_⟩
    dsimp only
    rw [h (f' leave), h (f' none), if_pos rfl, if_pos rfl, h' leave, Option.or_assoc]

/-- Of two, only the second may use its argument, or else the second has nothing without it. -/
theorem or (h : Defers f) (h' : Defers f') (hfirst : (∀ leave, f leave = f none) ∨ f' none = none) :
    Defers fun leave ↦ (f leave).or (f' leave) := by
  obtain ⟨idle, h⟩ := h
  obtain ⟨idle', h'⟩ := h'
  rcases hfirst with hconst | hnone
  · refine ⟨idle', fun leave ↦ ?_⟩
    dsimp only
    rw [hconst leave, h' leave, Option.or_assoc]
  · refine ⟨idle || idle', fun leave ↦ ?_⟩
    dsimp only
    rw [h leave, h' leave, hnone, Option.none_or, Option.or_none, Option.or_assoc]
    cases idle <;> cases idle' <;> simp

theorem prefer {greedy : Bool} (h : Defers f) (hnone : greedy = true ∨ f none = none) :
    Defers fun leave ↦ Graph.prefer greedy (f leave) leave := by
  cases greedy with
  | false => exact .or .id h (.inr (hnone.resolve_left Bool.false_ne_true))
  | true => exact .or h .id (.inr rfl)

/-- It makes no difference whether `f` is given what comes after it anyway. -/
theorem prefer_eq {greedy : Bool} (h : greedy = true → Defers f) (r : β) :
    Graph.prefer greedy (f none) (some r) = Graph.prefer greedy (f (some r)) (some r) := by
  cases greedy with
  | false => rfl
  | true =>
    obtain ⟨idle, h⟩ := h rfl
    show (f none).or (some r) = (f (some r)).or (some r)
    rw [h (some r), Option.or_assoc]
    cases idle <;> rfl

end Defers

variable [Atom α] {b : Boundary} {found : Nat → Option (Ahead × List Mark)} {p : Pattern α}
  {base : Nat}

/-- A pattern that is not nullable does not ask its exit. -/
theorem reply_of_nullable_eq_false (hnullable : p.nullable = false)
    (leave : Option (Ahead × List Mark)) :
    p.reply b found base leave = p.reply b found base none := by
  induction p generalizing base leave with
  | empty => cases hnullable
  | atom a => rfl
  | assert a => cases hnullable
  | concat p q ihp ihq =>
    rw [reply, reply]
    rcases Bool.and_eq_false_iff.mp hnullable with hp | hq
    · rw [ihp hp, ihp hp (q.reply b found _ none)]
    · rw [ihq hq]
  | alternate p q ihp ihq =>
    obtain ⟨hp, hq⟩ := Bool.or_eq_false_iff.mp hnullable
    rw [reply, reply, ihp hp, ihq hq]
  | zeroOrMore greedy p ih => cases hnullable
  | oneOrMore greedy p ih => exact ih hnullable leave
  | zeroOrOne greedy p ih => cases hnullable
  | group number p ih => rw [reply, reply, ih hnullable, Option.map_none]

/-- Nothing is found from a pattern without atoms, if nothing is found from its exit. -/
theorem reply_none_of_atomless (h : p.atomless = true) : p.reply b found base none = none := by
  induction p generalizing base with
  | empty => rfl
  | atom a => cases h
  | assert a => exact ite_self none
  | concat p q ihp ihq =>
    obtain ⟨hp, hq⟩ := Bool.and_eq_true_iff.mp h
    rw [reply, ihq hq, ihp hp]
  | alternate p q ihp ihq =>
    obtain ⟨hp, hq⟩ := Bool.and_eq_true_iff.mp h
    rw [reply, ihq hq, ihp hp, Option.or_none]
  | zeroOrMore greedy p ih => rw [reply, ih h, Graph.prefer_none_left]
  | oneOrMore greedy p ih => exact ih h
  | zeroOrOne greedy p ih => rw [reply, ih h, Graph.prefer_none_left]
  | group number p ih => rw [reply, Option.map_none, ih h, Option.map_none]

/-- A pattern whose idle ways come last defers to its exit. -/
theorem defers_reply (h : p.idlesLast = true) : Defers (p.reply b found base) := by
  induction p generalizing base with
  | empty => exact .id
  | atom a => exact .const fun _ ↦ rfl
  | assert a =>
    refine ⟨Atom.check a b.prev b.next, fun leave ↦ ?_⟩
    rw [reply, reply, ite_self, Option.none_or]
  | concat p q ihp ihq =>
    rcases (Bool.or_eq_true _ _).mp h with hnullable | hboth
    · have hfalse : (p.concat q).nullable = false := (Bool.not_eq_true' _).mp hnullable
      exact .const (reply_of_nullable_eq_false hfalse)
    · obtain ⟨hp, hq⟩ := Bool.and_eq_true_iff.mp hboth
      exact (ihp hp).comp (ihq hq)
  | alternate p q ihp ihq =>
    obtain ⟨hfirst, hboth⟩ := Bool.and_eq_true_iff.mp h
    obtain ⟨hp, hq⟩ := Bool.and_eq_true_iff.mp hboth
    exact (ihp hp).or (ihq hq) (((Bool.or_eq_true _ _).mp hfirst).imp
      (fun hnullable ↦ reply_of_nullable_eq_false ((Bool.not_eq_true' _).mp hnullable))
      reply_none_of_atomless)
  | zeroOrMore greedy p ih =>
    exact Defers.prefer (.const fun _ ↦ rfl)
      (((Bool.or_eq_true _ _).mp h).imp_right reply_none_of_atomless)
  | oneOrMore greedy p ih => exact ih h
  | zeroOrOne greedy p ih =>
    obtain ⟨hfirst, hp⟩ := Bool.and_eq_true_iff.mp h
    exact (ih hp).prefer (((Bool.or_eq_true _ _).mp hfirst).imp_right reply_none_of_atomless)
  | group number p ih =>
    rcases (Bool.or_eq_true _ _).mp h with hnullable | hbare
    · have hfalse : (p.group number).nullable = false := (Bool.not_eq_true' _).mp hnullable
      exact .const (reply_of_nullable_eq_false hfalse)
    · obtain ⟨hnone, hp⟩ := Bool.and_eq_true_iff.mp hbare
      cases Option.isNone_iff_eq_none.mp hnone
      have hbody : (p.group none).reply b found base = p.reply b found base := funext fun leave ↦
        (withMarks_nil _).trans (congrArg _ (withMarks_nil leave))
      exact hbody ▸ ih hp

/-! ## The same matches -/

omit [Atom α] in
/-- The graphs of `p*` and of `(p+)?` are the same up to the loop. -/
theorem shares_graph (p : Pattern α) (greedy : Bool) (groups : Nat) :
    Graph.Shares ((zeroOrMore greedy p).block.graph groups).nodes
      ((zeroOrOne greedy (oneOrMore greedy p)).block.graph groups).nodes (1 + (p.block.size + 1)) where
  same id hid := by
    obtain ⟨hp, hloop⟩ := ((zeroOrMore greedy p).block.holds_graph groups).of_wrap
    obtain ⟨hoperand, -⟩ := ((zeroOrOne greedy (oneOrMore greedy p)).block.holds_graph groups).of_wrap
    obtain ⟨hp', hloop'⟩ := hoperand.of_wrap
    obtain rfl | hin | rfl : id = 0 ∨ (0 < id ∧ id < 1 + p.block.size) ∨ id = 1 + p.block.size := by
      omega
    · rfl
    · obtain ⟨i, rfl⟩ := Nat.exists_eq_add_of_le hin.1
      obtain ⟨node, hnode⟩ : ∃ node, (p.block.nodes 1 (1 + p.block.size))[i]? = some node :=
        ⟨_, List.getElem?_eq_getElem (by rw [p.block.length_nodes]; omega)⟩
      rw [hp i node hnode, hp' i node hnode]
    · rw [hloop, hloop']
      rfl
  closed := (zeroOrMore greedy p).block.closed_graph_entry groups

/-- Searches of the two graphs find the same. -/
theorem search_zeroOrMore {greedy : Bool} (hlast : greedy = true → p.idlesLast = true) (groups : Nat)
    (bs : Ahead) :
    ((zeroOrMore greedy p).block.graph groups).search bs
        ((zeroOrMore greedy p).block.graph groups).entry =
      ((zeroOrOne greedy (oneOrMore greedy p)).block.graph groups).search bs
        ((zeroOrOne greedy (oneOrMore greedy p)).block.graph groups).entry := by
  cases bs with
  | nil => rfl
  | cons b rest =>
    rw [search_graph, search_graph, reply, reply, reply, reply_congr fun id hlo hhi ↦
      (p.shares_graph greedy groups).beyond_eq (Nat.lt_succ_of_lt hhi)]
    exact Defers.prefer_eq (fun hgreedy ↦ defers_reply (hlast hgreedy)) (b :: rest, [])

variable [LawfulAtom α] {limit : Nat} {greedy : Bool} {nfa nfa' : Nfa α}

/-- If the ways through a pattern that consume nothing come last and record no group, greedy `p*` and
`(p+)?` find the same matches in a string, with the same groups. The lazy ones do so in any case. -/
theorem findAll_zeroOrMore (h : (zeroOrMore greedy p).compile limit = .ok nfa)
    (h' : (zeroOrOne greedy (oneOrMore greedy p)).compile limit = .ok nfa')
    (hlast : greedy = true → p.idlesLast = true) (s : String) :
    nfa.findAll s.toUTF8.data .utf8 {} = nfa'.findAll s.toUTF8.data .utf8 {} := by
  have hgroups : nfa.groups = nfa'.groups :=
    (groups_of_compile h).trans (groups_of_compile h').symm
  have hattempt : nfa.attempt = nfa'.attempt := funext fun bs ↦ by
    obtain ⟨g, hg, hsearch⟩ := exists_ofPostorder_of_compile h
    obtain ⟨g', hg', hsearch'⟩ := exists_ofPostorder_of_compile h'
    rw [hsearch, hsearch', eq_graph_of_ofPostorder hg, eq_graph_of_ofPostorder hg']
    exact search_zeroOrMore hlast p.groups bs
  rw [Nfa.findAll_eq (sound_of_compile h) s rfl, Nfa.findAll_eq (sound_of_compile h') s rfl, hgroups,
    hattempt]

/-- The matches of `p*` and `(p+)?` in `xaabcb`, where `p` is `(a*)*b`, and where it is `(a*)*b|c*`. -/
theorem findAll_zeroOrMore_of_nested_loops :
    let p : Pattern Char :=
      .concat (.zeroOrMore true (.zeroOrMore true (.atom 'a'))) (.atom 'b')
    let q : Pattern Char := .alternate p (.zeroOrMore true (.atom 'c'))
    p.nullable = false ∧ q.nullable = true ∧ ∀ r ∈ [p, q], ∃ nfa nfa',
      (zeroOrMore true r).compile 12 = .ok nfa ∧
        (zeroOrOne true (oneOrMore true r)).compile 12 = .ok nfa' ∧ r.idlesLast = true ∧
          nfa.findAll "xaabcb".toUTF8.data .utf8 {} = nfa'.findAll "xaabcb".toUTF8.data .utf8 {} := by
  intro p q
  refine ⟨rfl, rfl, List.forall_mem_cons.mpr ⟨?_, List.forall_mem_singleton.mpr ?_⟩⟩
  · have hlast : p.idlesLast = true := idlesLast_of_nullable_eq_false rfl
    obtain ⟨nfa, h⟩ : ∃ nfa, (zeroOrMore true p).compile 12 = .ok nfa := ⟨_, rfl⟩
    obtain ⟨nfa', h'⟩ : ∃ nfa', (zeroOrOne true (oneOrMore true p)).compile 12 = .ok nfa' := ⟨_, rfl⟩
    exact ⟨nfa, nfa', h, h', hlast, findAll_zeroOrMore h h' (fun _ ↦ hlast) "xaabcb"⟩
  · obtain ⟨nfa, h⟩ : ∃ nfa, (zeroOrMore true q).compile 12 = .ok nfa := ⟨_, rfl⟩
    obtain ⟨nfa', h'⟩ : ∃ nfa', (zeroOrOne true (oneOrMore true q)).compile 12 = .ok nfa' := ⟨_, rfl⟩
    exact ⟨nfa, nfa', h, h', rfl, findAll_zeroOrMore h h' (fun _ ↦ rfl) "xaabcb"⟩

/-- In `aa`, `(|a)*` takes everything at once. `((|a)+)?` prefers the empty text, as the order of the
alternatives asks for. -/
theorem findAll_zeroOrMore_ne_of_nullable :
    let p : Pattern Char := .alternate .empty (.atom 'a')
    let spans := fun nfa : Nfa Char ↦ (nfa.findAll "aa".toUTF8.data .utf8 {}).map (·.span? 0)
    ∃ nfa nfa', (zeroOrMore true p).compile 10 = .ok nfa ∧
      (zeroOrOne true (oneOrMore true p)).compile 10 = .ok nfa' ∧
      spans nfa = [some ⟨0, 2⟩, some ⟨2, 2⟩] ∧
      spans nfa' = [some ⟨0, 0⟩, some ⟨1, 1⟩, some ⟨2, 2⟩] ∧
      nfa.findAll "aa".toUTF8.data .utf8 {} ≠ nfa'.findAll "aa".toUTF8.data .utf8 {} := by
  intro p spans
  have hspans : ((zeroOrMore true p).compile 10).toOption.map spans =
      some [some ⟨0, 2⟩, some ⟨2, 2⟩] := by decide +kernel
  have hspans' : ((zeroOrOne true (oneOrMore true p)).compile 10).toOption.map spans =
      some [some ⟨0, 0⟩, some ⟨1, 1⟩, some ⟨2, 2⟩] := by decide +kernel
  obtain ⟨nfa, h⟩ : ∃ nfa, (zeroOrMore true p).compile 10 = .ok nfa := ⟨_, rfl⟩
  obtain ⟨nfa', h'⟩ : ∃ nfa', (zeroOrOne true (oneOrMore true p)).compile 10 = .ok nfa' := ⟨_, rfl⟩
  rw [h] at hspans
  rw [h'] at hspans'
  refine ⟨nfa, nfa', h, h', Option.some.inj hspans, Option.some.inj hspans', fun heq ↦ ?_⟩
  have hspans_eq : spans nfa = spans nfa' := congrArg (List.map (·.span? 0)) heq
  rw [Option.some.inj hspans, Option.some.inj hspans'] at hspans_eq
  exact absurd hspans_eq (by decide)

end Pattern

end Lockstep

import Lockstep.Proofs.Scan.Outlook
import Lockstep.Proofs.SparseSet

/-!
# A step keeps the outcome

A step takes one thread after another along its transitions. Each transition is skipped, or enters
a state, or completes a match, and none of the three changes the outcome: a skipped one leads
nowhere or into a state whose thread finds what it would find, an entered one stands for what its
thread finds, and a completed match supersedes what it has to and cuts only threads that it
overlaps.
-/

namespace Lockstep

universe u

variable {α : Type u}

namespace Generation

theorem contains_add {g : Generation} {t : Thread} {state : Nat}
    (h : (g.add t).contains state = true) : g.contains state = true ∨ state = t.state := by
  have hmem := SparseSet.mem_toList_insert (SparseSet.contains_iff_mem.mp h)
  exact hmem.imp_left SparseSet.contains_iff_mem.mpr

@[simp] theorem toList_threads_add (g : Generation) (t : Thread) :
    (g.add t).threads.toList = g.threads.toList ++ [t] := by
  simp [add]

/-- Threads with histories in the tree, in order of their starts, none of them later than `bound`,
and none in the final state. Every state that counts as entered has a thread. -/
structure Sound (g : Generation) (t : CaptureTree) (bound : Nat) : Prop where
  names : ∀ thread ∈ g.threads.toList, t.Names thread.captures
  start_le : ∀ thread ∈ g.threads.toList, thread.start ≤ bound
  sorted : g.threads.toList.Pairwise (·.start ≤ ·.start)
  entered : ∀ state, g.contains state = true →
    state ≠ Nfa.final ∧ ∃ thread ∈ g.threads.toList, thread.state = state

variable {g : Generation} {t t' : CaptureTree} {bound bound' : Nat}

theorem Sound.mono (h : g.Sound t bound) (hext : t'.Extends t) (hle : bound ≤ bound') :
    g.Sound t' bound' where
  names thread hmem := (h.names thread hmem).mono hext
  start_le thread hmem := Nat.le_trans (h.start_le thread hmem) hle
  sorted := h.sorted
  entered := h.entered

/-- A thread that begins no earlier than the others may enter a state after them. -/
theorem Sound.add (h : g.Sound t bound) {thread : Thread} (hnames : t.Names thread.captures)
    (hstart : thread.start = bound) (hstate : thread.state ≠ Nfa.final) :
    (g.add thread).Sound t bound := by
  constructor
  case names =>
    intro thread' hmem
    rcases List.mem_append.mp (toList_threads_add g thread ▸ hmem) with hmem | hmem
    · exact h.names thread' hmem
    · cases List.mem_singleton.mp hmem
      exact hnames
  case start_le =>
    intro thread' hmem
    rcases List.mem_append.mp (toList_threads_add g thread ▸ hmem) with hmem | hmem
    · exact h.start_le thread' hmem
    · cases List.mem_singleton.mp hmem
      exact Nat.le_of_eq hstart
  case sorted =>
    rw [toList_threads_add]
    refine List.pairwise_append.mpr ⟨h.sorted, List.pairwise_singleton _ _, ?_⟩
    intro thread' hmem thread'' hmem'
    cases List.mem_singleton.mp hmem'
    exact hstart ▸ h.start_le thread' hmem
  case entered =>
    intro state hstate'
    rw [toList_threads_add]
    rcases contains_add hstate' with hold | rfl
    · obtain ⟨hne, thread', hmem, hthread'⟩ := h.entered state hold
      exact ⟨hne, thread', List.mem_append_left _ hmem, hthread'⟩
    · exact ⟨hstate, thread, List.mem_append_right _ (List.mem_singleton_self _), rfl⟩

end Generation

namespace Progress

/-- What holds of a step under way: the threads it has moved on begin no later than `bound`, and
the buffered matches before `limit`. -/
structure Sound (p : Progress) (bound limit : Nat) : Prop where
  upcoming : p.upcoming.Sound p.captures bound
  found : p.found.Sound p.captures limit

/-- A thread enters the target of a transition. -/
def enter (nfa : Nfa α) (b : Boundary) (thread : Thread) (tr : Transition) (p : Progress) :
    Progress :=
  let r := p.captures.record thread.captures b.offset (nfa.work tr)
  ⟨p.upcoming.add ⟨tr.target, r.1, thread.start⟩, r.2, p.found, p.cut⟩

/-- A thread completes its match. -/
def complete (nfa : Nfa α) (b : Boundary) (thread : Thread) (tr : Transition) (p : Progress) :
    Progress :=
  let r := p.captures.record thread.captures b.offset (nfa.work tr)
  ⟨p.upcoming, r.2, p.found.insert ⟨⟨thread.start, b.offset⟩, r.1, false⟩, true⟩

/-- The match that a thread completes. -/
def completed (nfa : Nfa α) (b : Boundary) (thread : Thread) (tr : Transition) (p : Progress) :
    Found :=
  ⟨⟨thread.start, b.offset⟩, (p.captures.path thread.captures).reverse ++
    marksAt b.offset (nfa.work tr)⟩

/-- The candidate for the match that a thread completes. -/
def candidate (nfa : Nfa α) (b : Boundary) (thread : Thread) (tr : Transition) (p : Progress) :
    Candidate :=
  ⟨⟨thread.start, b.offset⟩, (p.captures.record thread.captures b.offset (nfa.work tr)).1, false⟩

/-- The thread that goes on in the target of a transition. -/
def successor (nfa : Nfa α) (b : Boundary) (thread : Thread) (tr : Transition) (p : Progress) :
    Thread :=
  ⟨tr.target, (p.captures.record thread.captures b.offset (nfa.work tr)).1, thread.start⟩

variable {bound limit : Nat} {p : Progress} {thread : Thread}

theorem Sound.enter (h : p.Sound bound limit) (hnames : p.captures.Names thread.captures)
    (hstart : thread.start = bound) (nfa : Nfa α) (b : Boundary) {tr : Transition}
    (htarget : tr.target ≠ Nfa.final) : (p.enter nfa b thread tr).Sound bound limit := by
  have hext := CaptureTree.extends_record p.captures thread.captures b.offset (nfa.work tr)
  have hlast := CaptureTree.names_record hnames b.offset (nfa.work tr)
  exact ⟨(h.upcoming.mono hext (Nat.le_refl _)).add hlast hstart htarget,
    h.found.mono hext (Nat.le_refl _)⟩

theorem Sound.complete (h : p.Sound bound limit) (hnames : p.captures.Names thread.captures)
    (hlt : thread.start < limit) (nfa : Nfa α) (b : Boundary) (tr : Transition) :
    (p.complete nfa b thread tr).Sound bound limit := by
  have hext := CaptureTree.extends_record p.captures thread.captures b.offset (nfa.work tr)
  have hlast := CaptureTree.names_record hnames b.offset (nfa.work tr)
  exact ⟨h.upcoming.mono hext (Nat.le_refl _),
    (h.found.mono hext (Nat.le_refl _)).insert hlast hlt rfl⟩

/-- The match that a thread completes supersedes the buffered ones that do not begin before it. -/
theorem view_complete (h : p.found.Sound p.captures limit) (hnames : p.captures.Names thread.captures)
    (nfa : Nfa α) (b : Boundary) (tr : Transition) :
    (p.complete nfa b thread tr).found.view (p.complete nfa b thread tr).captures =
      (p.found.view p.captures).filter (·.span.start < (p.completed nfa b thread tr).span.start) ++
        [p.completed nfa b thread tr] := by
  have hext := CaptureTree.extends_record p.captures thread.captures b.offset (nfa.work tr)
  have hpath := CaptureTree.reverse_path_record hnames b.offset (nfa.work tr)
  rw [complete, MatchBuffer.view_insert h.sorted, MatchBuffer.view_extends h hext, Found.ofCandidate,
    hpath]
  rfl

variable [Atom α] {nfa : Nfa α} {b : Boundary} {rest : Ahead} {tr : Transition}
  {trs : List Transition}

theorem follow_skip (h : p.upcoming.contains tr.target = true ∨ nfa.enabled b tr = false) :
    follow nfa b thread (tr :: trs) p = follow nfa b thread trs p := by
  obtain ⟨upcoming, captures, found, cut⟩ := p
  unfold Nfa.enabled at h
  rw [follow]
  dsimp only at h ⊢
  rw [if_pos]
  rcases h with h | h
  · rw [h]
    simp
  · rcases Bool.and_eq_false_iff.mp h with h | h <;> rw [h] <;> simp

theorem follow_of_enabled (hnew : p.upcoming.contains tr.target = false)
    (h : nfa.enabled b tr = true) :
    follow nfa b thread (tr :: trs) p =
      if tr.target = Nfa.final then p.complete nfa b thread tr
      else follow nfa b thread trs (p.enter nfa b thread tr) := by
  obtain ⟨upcoming, captures, found, cut⟩ := p
  unfold Nfa.enabled at h
  obtain ⟨hadmits, hholds⟩ := Bool.and_eq_true_iff.mp h
  rw [follow]
  dsimp only at hnew ⊢
  rw [if_neg (by rw [hnew, hadmits, hholds]; decide)]
  rfl

/-- A transition is skipped, or it is taken. -/
theorem skipped_or_taken (nfa : Nfa α) (b : Boundary) (p : Progress) (tr : Transition) :
    (p.upcoming.contains tr.target = true ∨ nfa.enabled b tr = false) ∨
      (p.upcoming.contains tr.target = false ∧ nfa.enabled b tr = true) := by
  cases p.upcoming.contains tr.target <;> cases nfa.enabled b tr <;> simp

/-- The outcome in the midst of a step: the threads moved on are looked at from the boundaries
`rest` after this one, and `later` is the first match that the threads still to be moved on will
find. -/
def outcome (nfa : Nfa α) (rest : Ahead) (p : Progress) (later : Option (Found × Ahead)) :
    List Found :=
  Lockstep.outcome nfa (p.found.view p.captures) rest
    ((prospects nfa p.captures rest p.upcoming.threads.toList).or later)

/-- A thread that entered a state finds what its transition leads to. -/
theorem prospect_entered (hnames : p.captures.Names thread.captures)
    (hrest : Ahead.Ordered (b :: rest)) (hstart : thread.start ≤ b.offset)
    (henabled : nfa.enabled b tr = true) (htarget : tr.target ≠ Nfa.final) :
    Thread.prospect nfa (p.enter nfa b thread tr).captures rest
        ⟨tr.target, (p.captures.record thread.captures b.offset (nfa.work tr)).1, thread.start⟩ =
      thread.along nfa p.captures b rest tr := by
  have hpath := CaptureTree.reverse_path_record hnames b.offset (nfa.work tr)
  simp only [Thread.prospect, Thread.along, Nfa.along, Nfa.beyond, henabled, if_true, if_neg htarget,
    Option.map_map]
  cases hsearch : nfa.search rest tr.target with
  | none => rfl
  | some r =>
    obtain ⟨stop, marks⟩ := r
    have hle := (Nfa.suffix_of_search hsearch).length_le
    have hne : thread.start ≠ rest.offset := by
      cases rest with
      | nil => simp at hsearch
      | cons b' rest =>
        have hlt : b.offset < b'.offset := hrest.lt List.mem_cons_self
        rw [Ahead.offset_cons]
        omega
    have honward : onward thread.start (b :: rest) stop = stop :=
      onward_of_lt (Nat.lt_succ_of_le hle)
    simp only [Option.map_some, Function.comp_apply, Thread.report, onward_of_ne hne, honward,
      enter, hpath, List.append_assoc]

/-- A transition into a state that a thread is in already adds nothing to what that thread finds. -/
theorem along_of_contains (h : p.upcoming.Sound p.captures bound)
    (hcontains : p.upcoming.contains tr.target = true)
    (hnone : prospects nfa p.captures rest p.upcoming.threads.toList = none) :
    thread.along nfa p.captures b rest tr = none := by
  obtain ⟨htarget, thread', hmem, hstate⟩ := h.entered _ hcontains
  have hsearch := List.findSome?_eq_none_iff.mp hnone thread' hmem
  rw [Thread.prospect, Option.map_eq_none_iff, hstate] at hsearch
  simp only [Thread.along, Nfa.along, Nfa.beyond, if_neg htarget, hsearch]
  split <;> rfl

/-- Skipping a transition keeps the outcome. -/
theorem outcome_skip (h : p.upcoming.Sound p.captures bound)
    (hskip : p.upcoming.contains tr.target = true ∨ nfa.enabled b tr = false)
    (later : Option (Found × Ahead)) :
    p.outcome nfa rest later =
      p.outcome nfa rest ((thread.along nfa p.captures b rest tr).or later) := by
  unfold outcome
  cases hfirst : prospects nfa p.captures rest p.upcoming.threads.toList with
  | some r => rfl
  | none =>
    have hnone : thread.along nfa p.captures b rest tr = none := by
      rcases hskip with hcontains | hdisabled
      · exact along_of_contains h hcontains hfirst
      · simp [Thread.along, Nfa.along, hdisabled]
    rw [hnone]
    rfl

/-- Entering a state keeps the outcome: the new thread comes after the ones moved on before. -/
theorem outcome_enter (h : p.Sound bound limit) (hnames : p.captures.Names thread.captures)
    (hrest : Ahead.Ordered (b :: rest)) (hstart : thread.start ≤ b.offset)
    (henabled : nfa.enabled b tr = true) (htarget : tr.target ≠ Nfa.final)
    (later : Option (Found × Ahead)) :
    (p.enter nfa b thread tr).outcome nfa rest later =
      p.outcome nfa rest ((thread.along nfa p.captures b rest tr).or later) := by
  have hext := CaptureTree.extends_record p.captures thread.captures b.offset (nfa.work tr)
  have hview : (p.enter nfa b thread tr).found.view (p.enter nfa b thread tr).captures =
      p.found.view p.captures := MatchBuffer.view_extends h.found hext
  have hold : prospects nfa (p.enter nfa b thread tr).captures rest p.upcoming.threads.toList =
      prospects nfa p.captures rest p.upcoming.threads.toList :=
    prospects_extends h.upcoming.names hext rest
  have hnew : prospects nfa (p.enter nfa b thread tr).captures rest
        (p.enter nfa b thread tr).upcoming.threads.toList =
      (prospects nfa p.captures rest p.upcoming.threads.toList).or
        (thread.along nfa p.captures b rest tr) := by
    rw [← prospect_entered hnames hrest hstart henabled htarget, ← hold]
    dsimp only [enter]
    rw [Generation.toList_threads_add, prospects_append, prospects_singleton]
  rw [outcome, outcome, hview, hnew, Option.or_assoc]

/-- Completing a match keeps the outcome, if `later` is what is left to be found after the threads
that the match cuts. -/
theorem outcome_complete (h : p.Sound bound limit) (hnames : p.captures.Names thread.captures)
    (hbound : bound ≤ thread.start) (henabled : nfa.enabled b tr = true)
    (htarget : tr.target = Nfa.final) {later : Option (Found × Ahead)}
    (hlater : ∀ r ∈ later, limit ≤ r.1.span.start ∧ thread.start < r.1.span.start)
    (honward : sequential nfa.attempt (onward thread.start (b :: rest) (b :: rest)) =
      onwardMatches nfa.attempt rest later)
    (other : Option (Found × Ahead)) :
    (p.complete nfa b thread tr).outcome nfa rest later =
      p.outcome nfa rest ((thread.along nfa p.captures b rest tr).or other) := by
  have hext := CaptureTree.extends_record p.captures thread.captures b.offset (nfa.work tr)
  have hold : prospects nfa (p.complete nfa b thread tr).captures rest p.upcoming.threads.toList =
      prospects nfa p.captures rest p.upcoming.threads.toList :=
    prospects_extends h.upcoming.names hext rest
  have halong : thread.along nfa p.captures b rest tr =
      some (p.completed nfa b thread tr, onward thread.start (b :: rest) (b :: rest)) := by
    simp [Thread.along, Nfa.along, Nfa.beyond, henabled, htarget, Thread.report, completed]
  have hupcoming : (p.complete nfa b thread tr).upcoming = p.upcoming := rfl
  rw [outcome, outcome, hupcoming, hold, halong, Option.some_or, view_complete h.found hnames]
  cases hfirst : prospects nfa p.captures rest p.upcoming.threads.toList with
  | some r =>
    -- a thread moved on before is preferred, and supersedes this match as well
    obtain ⟨thread', hmem, hstart⟩ := exists_start_of_prospects hfirst
    have hle : r.1.span.start ≤ thread.start :=
      hstart ▸ Nat.le_trans (h.upcoming.start_le thread' hmem) hbound
    exact outcome_supersede hle rest
  | none =>
    exact outcome_insert (fun m hm ↦ MatchBuffer.start_lt_of_mem_view h.found hm) hlater honward

/-! ## All transitions of a thread -/

/-- What a step has done after more of it: it is still sound, the tree has only grown, and the
outcome is the same. -/
structure Continues (nfa : Nfa α) (rest : Ahead) (bound limit : Nat)
    (later later' : Option (Found × Ahead)) (p p' : Progress) : Prop where
  sound : p'.Sound bound limit
  extend : p'.captures.Extends p.captures
  outcome : p'.outcome nfa rest later' = p.outcome nfa rest later

/-- Taking a thread along transitions keeps the outcome. If it completes a match, `later` is what
is left to be found after the threads that are cut, and `other` what is left otherwise. -/
theorem continues_follow (nfa : Nfa α) (trs : List Transition) (later other : Option (Found × Ahead))
    (hrest : Ahead.Ordered (b :: rest)) (hstart : thread.start ≤ b.offset)
    (hlimit : thread.start < limit)
    (hlater : ∀ r ∈ later, limit ≤ r.1.span.start ∧ thread.start < r.1.span.start)
    (honward : sequential nfa.attempt (onward thread.start (b :: rest) (b :: rest)) =
      onwardMatches nfa.attempt rest later)
    (h : p.Sound thread.start limit) (hnames : p.captures.Names thread.captures)
    (hcut : p.cut = true → later = other) :
    Continues nfa rest thread.start limit
      ((trs.findSome? (thread.along nfa p.captures b rest)).or other)
      (if (follow nfa b thread trs p).cut then later else other) p (follow nfa b thread trs p) := by
  induction trs generalizing p with
  | nil =>
    refine ⟨h, .refl _, ?_⟩
    rw [follow]
    cases hp : p.cut with
    | false => simp
    | true => simp [hcut hp]
  | cons tr trs ih =>
    rcases skipped_or_taken nfa b p tr with hskip | ⟨hnew, henabled⟩
    · -- the transition leads nowhere new
      have ih := ih h hnames hcut
      rw [follow_skip hskip]
      refine ⟨ih.sound, ih.extend, ih.outcome.trans ?_⟩
      rw [outcome_skip h.upcoming hskip, List.findSome?_cons]
      cases thread.along nfa p.captures b rest tr <;> rfl
    · have hext := CaptureTree.extends_record p.captures thread.captures b.offset (nfa.work tr)
      rw [follow_of_enabled hnew henabled]
      by_cases htarget : tr.target = Nfa.final
      · rw [if_pos htarget]
        refine ⟨h.complete hnames hlimit nfa b tr, hext, ?_⟩
        have hcomplete := outcome_complete h hnames (Nat.le_refl _) henabled htarget hlater honward
          ((trs.findSome? (thread.along nfa p.captures b rest)).or other)
        have hcut' : (p.complete nfa b thread tr).cut = true := rfl
        rw [if_pos hcut', hcomplete, List.findSome?_cons]
        cases thread.along nfa p.captures b rest tr <;> rfl
      · rw [if_neg htarget]
        have ih := ih (p := p.enter nfa b thread tr) (h.enter hnames rfl nfa b htarget)
          (hnames.mono hext) hcut
        refine ⟨ih.sound, ih.extend.trans hext, ih.outcome.trans ?_⟩
        rw [outcome_enter h hnames hrest hstart henabled htarget]
        have halong : thread.along nfa (p.enter nfa b thread tr).captures b rest =
            thread.along nfa p.captures b rest := Thread.along_extends hnames hext nfa b rest
        rw [halong, List.findSome?_cons]
        cases thread.along nfa p.captures b rest tr <;> rfl

/-! ## All threads of a generation -/

end Progress

/-- The thread of a new attempt. -/
abbrev Thread.fresh (offset : Nat) : Thread := ⟨Nfa.entry, none, offset⟩

variable [Atom α] {nfa : Nfa α} {b : Boundary} {rest : Ahead}

/-- One attempt after another from a boundary on is what the thread of the new attempt there will
find, and what follows. -/
theorem sequential_cons (nfa : Nfa α) (t : CaptureTree) (b : Boundary) (rest : Ahead) :
    sequential nfa.attempt (b :: rest) =
      onwardMatches nfa.attempt rest ((Thread.fresh b.offset).prospect nfa t (b :: rest)) := by
  cases hsearch : nfa.attempt (b :: rest) with
  | none =>
    rw [sequential_of_none hsearch]
    rw [Nfa.attempt] at hsearch
    simp [Thread.prospect, hsearch, onwardMatches]
  | some r =>
    obtain ⟨stop, marks⟩ := r
    rw [sequential_of_some hsearch]
    rw [Nfa.attempt] at hsearch
    have honward : onward b.offset (b :: rest) stop =
        if stop.length < (b :: rest).length then stop else rest := by
      by_cases hlt : stop.length < (b :: rest).length
      · rw [onward_of_lt hlt, if_pos hlt]
      · rw [onward, if_pos ⟨rfl, hlt⟩, if_neg hlt, List.tail_cons]
    simp [Thread.prospect, hsearch, onwardMatches, Thread.report, honward]

/-- A new attempt has no history, so the tree does not matter. -/
theorem Thread.prospect_fresh (nfa : Nfa α) (t t' : CaptureTree) (bs : Ahead) (offset : Nat) :
    (Thread.fresh offset).prospect nfa t bs = (Thread.fresh offset).prospect nfa t' bs := by
  have hreport : (Thread.fresh offset).report t bs = (Thread.fresh offset).report t' bs := by
    funext r
    simp [Thread.report]
  rw [Thread.prospect, hreport, Thread.prospect]

theorem Thread.start_of_fresh {nfa : Nfa α} {t : CaptureTree} {bs : Ahead} {offset : Nat} :
    ∀ r ∈ (Thread.fresh offset).prospect nfa t bs, r.1.span.start = offset :=
  fun _ h ↦ Thread.start_of_prospect h

namespace Progress

variable {p : Progress}

/-- Taking the threads of earlier attempts over a boundary keeps the outcome. A match that one of
them completes cuts the ones after it, but not the attempt that begins here. -/
theorem continues_older (nfa : Nfa α) (hrest : Ahead.Ordered (b :: rest)) {older : List Thread}
    {bound : Nat} (h : p.Sound bound b.offset) (hnames : ∀ thread ∈ older, p.captures.Names thread.captures)
    (hbound : ∀ thread ∈ older, bound ≤ thread.start) (hle : bound ≤ b.offset)
    (hlt : ∀ thread ∈ older, thread.start < b.offset)
    (hsorted : older.Pairwise (·.start ≤ ·.start)) (t : CaptureTree) :
    Continues nfa rest b.offset b.offset
      ((if p.cut then none else prospects nfa p.captures (b :: rest) older).or
        ((Thread.fresh b.offset).prospect nfa t (b :: rest)))
      ((Thread.fresh b.offset).prospect nfa t (b :: rest))
      p (older.foldl (advance nfa b) p) := by
  induction older generalizing p bound with
  | nil =>
    refine ⟨⟨h.upcoming.mono (.refl _) hle, h.found⟩, .refl _, ?_⟩
    simp [prospects]
  | cons thread older ih =>
    obtain ⟨hthread, holder⟩ := List.pairwise_cons.mp hsorted
    have hmem : ∀ thread' ∈ older, thread' ∈ thread :: older := fun _ ↦ List.mem_cons_of_mem _
    have hlt' := hlt thread List.mem_cons_self
    rw [List.foldl_cons]
    cases hcut : p.cut with
    | true =>
      have hskip : advance nfa b p thread = p := by
        simp [advance, hcut, Nat.ne_of_lt hlt']
      rw [hskip]
      have ih := ih h (fun _ hm ↦ hnames _ (hmem _ hm)) (fun _ hm ↦ hbound _ (hmem _ hm)) hle
        (fun _ hm ↦ hlt _ (hmem _ hm)) holder
      rwa [hcut] at ih
    | false =>
      have hfollow : advance nfa b p thread =
          follow nfa b thread (nfa.transitions thread.state) p := by
        simp [advance, hcut]
      have hstep := continues_follow nfa (nfa.transitions thread.state)
        ((Thread.fresh b.offset).prospect nfa t (b :: rest))
        ((prospects nfa p.captures (b :: rest) older).or
          ((Thread.fresh b.offset).prospect nfa t (b :: rest))) hrest (Nat.le_of_lt hlt') hlt'
        (fun r hr ↦ by rw [Thread.start_of_fresh r hr]; exact ⟨Nat.le_refl _, hlt'⟩)
        (by rw [onward_of_ne (Nat.ne_of_lt hlt'), sequential_cons nfa t])
        ⟨h.upcoming.mono (.refl _) (hbound thread List.mem_cons_self), h.found⟩
        (hnames thread List.mem_cons_self) (fun hc ↦ by rw [hcut] at hc; cases hc)
      rw [← hfollow] at hstep
      have hnames' : ∀ thread' ∈ older, p.captures.Names thread'.captures :=
        fun _ hm ↦ hnames _ (hmem _ hm)
      have ih := ih hstep.sound (fun _ hm ↦ (hnames' _ hm).mono hstep.extend) hthread
        (Nat.le_of_lt hlt') (fun _ hm ↦ hlt _ (hmem _ hm)) holder
      refine ⟨ih.sound, ih.extend.trans hstep.extend, ih.outcome.trans ?_⟩
      rw [prospects_extends hnames' hstep.extend]
      rw [if_neg Bool.false_ne_true, prospects_cons, thread.prospect_cons nfa, Option.or_assoc,
        ← hstep.outcome]
      cases (advance nfa b p thread).cut <;> rfl

/-- Taking the thread of the new attempt over its boundary keeps the outcome: nothing comes after
it in the step. -/
theorem continues_entry (nfa : Nfa α) (hrest : Ahead.Ordered (b :: rest))
    (h : p.Sound b.offset b.offset) (t : CaptureTree) :
    Continues nfa rest b.offset (b.offset + 1)
      ((Thread.fresh b.offset).prospect nfa t (b :: rest)) none p
      (advance nfa b p (Thread.fresh b.offset)) := by
  have hfollow : advance nfa b p (Thread.fresh b.offset) =
      follow nfa b (Thread.fresh b.offset) (nfa.transitions Nfa.entry) p := by
    simp [advance]
  have hsound : p.Sound (Thread.fresh b.offset).start (b.offset + 1) :=
    ⟨h.upcoming, h.found.mono (.refl _) (Nat.le_succ _)⟩
  have hstep := continues_follow nfa (nfa.transitions Nfa.entry) none none hrest (Nat.le_refl _)
    (Nat.lt_succ_self _) (fun r hr ↦ by cases hr) (by simp [onward, onwardMatches]) hsound
    (CaptureTree.names_none _) (fun _ ↦ rfl)
  rw [← hfollow, ite_self, Option.or_none] at hstep
  rwa [Thread.prospect_fresh nfa t p.captures, Thread.prospect_cons]

end Progress

end Lockstep

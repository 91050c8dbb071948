import Mathlib.Data.List.Induction
import Lockstep.Proofs.Capture.Forest

/-!
# The last pair of a group

A group spans from an opening to a closing of it: the closing is the last in the history, and the
opening is the last before that closing. Reading the history once from its end finds the pairs of all
groups, and a mark that is in none of them makes no difference, wherever it stands.
-/

namespace Lockstep

variable {group groups : Nat} {marks before after : List Mark} {m : Mark} {span : Span}

/-! ## Pairs -/

/-- A closing of the group. -/
def Mark.Closes (m : Mark) (group : Nat) : Prop := m.side = .closing ∧ m.group = group

/-- An opening of the group. -/
def Mark.Opens (m : Mark) (group : Nat) : Prop := m.side = .opening ∧ m.group = group

instance (m : Mark) (group : Nat) : Decidable (m.Closes group) :=
  inferInstanceAs (Decidable (m.side = .closing ∧ m.group = group))

instance (m : Mark) (group : Nat) : Decidable (m.Opens group) :=
  inferInstanceAs (Decidable (m.side = .opening ∧ m.group = group))

/-- An opening of the group at `offset`, after which there is no other. -/
def LastOpening (group : Nat) (marks : List Mark) (offset : Nat) : Prop :=
  ∃ before after, marks = before ++ ⟨.opening, group, offset⟩ :: after ∧
    ∀ m ∈ after, ¬ m.Opens group

/-- A closing of the group, after which there is no other, and the last opening before it. -/
def LastPair (group : Nat) (marks : List Mark) (span : Span) : Prop :=
  ∃ before after, marks = before ++ ⟨.closing, group, span.stop⟩ :: after ∧
    (∀ m ∈ after, ¬ m.Closes group) ∧ LastOpening group before span.start

/-- A mark is in no pair that counts for the group, as what comes after it tells: it is of another
group, or an opening that is never closed, or there is a pair after it. -/
inductive Idle (group : Nat) (m : Mark) (after : List Mark) : Prop where
  | other (h : m.group ≠ group)
  | unclosed (hside : m.side = .opening) (h : ∀ m' ∈ after, ¬ m'.Closes group)
  | earlier {span : Span} (h : LastPair group after span)

theorem LastOpening.append {offset : Nat} (h : LastOpening group marks offset) (before : List Mark) :
    LastOpening group (before ++ marks) offset := by
  obtain ⟨earlier, after, rfl, hafter⟩ := h
  exact ⟨before ++ earlier, after, (List.append_assoc _ _ _).symm, hafter⟩

/-- What comes before a pair does not matter. -/
theorem LastPair.append (h : LastPair group marks span) (before : List Mark) :
    LastPair group (before ++ marks) span := by
  obtain ⟨earlier, after, rfl, hafter, hopening⟩ := h
  exact ⟨before ++ earlier, after, (List.append_assoc _ _ _).symm, hafter, hopening.append before⟩

/-! ## One more mark -/

/-- A closing of the group ends a new pair, and any other mark leaves the last pair as it is. -/
theorem lastPair_concat : LastPair group (marks ++ [m]) span ↔
    (m = ⟨.closing, group, span.stop⟩ ∧ LastOpening group marks span.start) ∨
      (¬ m.Closes group ∧ LastPair group marks span) := by
  constructor
  · rintro ⟨before, after, heq, hafter, hopening⟩
    rcases List.eq_nil_or_concat after with rfl | ⟨after, last, rfl⟩
    · obtain ⟨rfl, hlast⟩ := List.append_inj' heq rfl
      exact .inl ⟨List.singleton_inj.mp hlast, hopening⟩
    · rw [List.concat_eq_append, ← List.cons_append, ← List.append_assoc] at heq
      rw [List.concat_eq_append] at hafter
      obtain ⟨rfl, hlast⟩ := List.append_inj' heq rfl
      cases hlast
      exact .inr ⟨hafter m (List.mem_append_right _ (List.mem_singleton_self m)), before, after, rfl,
        fun m' hm' ↦ hafter m' (List.mem_append_left _ hm'), hopening⟩
  · rintro (⟨rfl, hopening⟩ | ⟨hm, before, after, rfl, hafter, hopening⟩)
    · exact ⟨marks, [], rfl, nofun, hopening⟩
    · refine ⟨before, after ++ [m], List.append_assoc _ _ _, fun m' hm' ↦ ?_, hopening⟩
      rcases List.mem_append.mp hm' with hm' | hm'
      · exact hafter m' hm'
      · exact List.mem_singleton.mp hm' ▸ hm

theorem groupSpan?_concat_of_not_closes (hm : ¬ m.Closes group) :
    groupSpan? group (marks ++ [m]) = groupSpan? group marks := by
  rw [groupSpan?, groupSpan?, List.reverse_append, List.reverse_singleton, List.singleton_append]
  by_cases hgroup : m.group = group
  · have hside : m.side = .opening := by
      cases hside : m.side with
      | opening => rfl
      | closing => exact absurd ⟨hside, hgroup⟩ hm
    rw [List.filter_cons_of_pos (by simpa using hgroup),
      List.dropWhile_cons_of_pos (by simpa using hside)]
  · rw [List.filter_cons_of_neg (by simpa using hgroup)]

theorem lastOpening_iff {offset : Nat} : LastOpening group marks offset ↔
    ∃ opening, marks.reverse.find? (·.Opens group) = some opening ∧ opening.offset = offset := by
  constructor
  · rintro ⟨before, after, rfl, hafter⟩
    refine ⟨⟨.opening, group, offset⟩, ?_, rfl⟩
    refine List.find?_eq_some_iff_append.mpr ⟨by simp [Mark.Opens], after.reverse, before.reverse, ?_, ?_⟩
    · simp
    · intro m hm
      simpa using hafter m (List.mem_reverse.mp hm)
  · rintro ⟨⟨side, group', offset⟩, hfind, rfl⟩
    obtain ⟨hopens, after, before, heq, hafter⟩ := List.find?_eq_some_iff_append.mp hfind
    obtain ⟨rfl, rfl⟩ : side = .opening ∧ group' = group := of_decide_eq_true hopens
    refine ⟨before.reverse, after.reverse, ?_, fun m hm ↦ ?_⟩
    · rw [← List.reverse_reverse marks, heq]
      simp
    · simpa using hafter m (List.mem_reverse.mp hm)

theorem find?_filter_group (group : Nat) (marks : List Mark) :
    (marks.filter (·.group = group)).find? (·.side = .opening) = marks.find? (·.Opens group) := by
  rw [List.find?_filter]
  congr 1
  funext m
  simp [Mark.Opens, and_comm]

theorem groupSpan?_concat_closing {stop : Nat} :
    groupSpan? group (marks ++ [⟨.closing, group, stop⟩]) =
      (marks.reverse.find? (·.Opens group)).map fun opening ↦ ⟨opening.offset, stop⟩ := by
  rw [groupSpan?, List.reverse_append, List.reverse_singleton, List.singleton_append,
    List.filter_cons_of_pos (by simp), List.dropWhile_cons_of_neg (by simp)]
  exact congrArg (Option.map _) (find?_filter_group group marks.reverse)

/-- A group spans from the opening to the closing of its last pair. -/
theorem groupSpan?_eq_some_iff : groupSpan? group marks = some span ↔ LastPair group marks span := by
  induction marks using List.reverseRecOn with
  | nil =>
    refine ⟨nofun, ?_⟩
    rintro ⟨before, after, heq, -⟩
    cases before <;> cases heq
  | append_singleton marks m ih =>
    rw [lastPair_concat]
    by_cases hm : m.Closes group
    · rw [or_iff_left fun h ↦ h.1 hm]
      obtain ⟨side, _, stop⟩ := m
      obtain ⟨rfl, rfl⟩ := hm
      rw [groupSpan?_concat_closing, lastOpening_iff, Option.map_eq_some_iff]
      constructor
      · rintro ⟨opening, hfind, rfl⟩
        exact ⟨rfl, opening, hfind, rfl⟩
      · rintro ⟨heq, opening, hfind, hoffset⟩
        cases heq
        exact ⟨opening, hfind, by rw [hoffset]⟩
    · rw [groupSpan?_concat_of_not_closes hm, ih, and_iff_right hm, or_iff_right]
      rintro ⟨rfl, -⟩
      exact hm ⟨rfl, rfl⟩

/-! ## Marks that make no difference -/

theorem groupSpan?_append_of_not_closes (hafter : ∀ m ∈ after, ¬ m.Closes group) :
    groupSpan? group (marks ++ after) = groupSpan? group marks := by
  induction after generalizing marks with
  | nil => rw [List.append_nil]
  | cons m after ih =>
    obtain ⟨hm, hafter⟩ := List.forall_mem_cons.mp hafter
    rw [← List.singleton_append, ← List.append_assoc, ih hafter, groupSpan?_concat_of_not_closes hm]

/-- A mark that is idle may be left out. -/
theorem Idle.groupSpan?_eq (h : Idle group m after) (before : List Mark) :
    groupSpan? group (before ++ m :: after) = groupSpan? group (before ++ after) := by
  cases h with
  | other hgroup => simp [groupSpan?, hgroup]
  | unclosed hside hafter =>
    have hm : ¬ m.Closes group := by simp [Mark.Closes, hside]
    rw [groupSpan?_append_of_not_closes hafter,
      groupSpan?_append_of_not_closes (List.forall_mem_cons.mpr ⟨hm, hafter⟩)]
  | earlier hpair =>
    have hcons := (hpair.append [m]).append before
    rw [groupSpan?_eq_some_iff.mpr (hpair.append before)]
    exact groupSpan?_eq_some_iff.mpr hcons

/-! ## Histories -/

namespace CaptureTree

/-- The marks of the history that ends at `last`, from the first to the last. -/
def History (t : CaptureTree) (last : Option Nat) (marks : List Mark) : Prop :=
  ∃ records, t.Yields last records ∧ (records.map Record.mark).reverse = marks

namespace Growth

variable {g : Growth} {last : Option Nat}

theorem Sound.exists_history (h : g.Sound) (hlast : g.Knows last) :
    ∃ marks, g.tree.History last marks := by
  obtain ⟨records, hyields, -⟩ := h.descends.exists_yields (h.names hlast)
  exact ⟨_, records, hyields, rfl⟩

/-- Resolving a history gives the spans of the groups in its marks. -/
theorem Sound.getElem?_resolve (h : g.Sound) (hlast : g.Knows last)
    (hhistory : g.tree.History last marks) (hgroup : group ≤ groups) :
    (g.tree.resolve last groups)[group]? = some (groupSpan? group marks) := by
  obtain ⟨records, hyields, rfl⟩ := hhistory
  obtain ⟨records', hyields', hpath⟩ := h.descends.exists_yields (h.names hlast)
  rw [CaptureTree.resolve, hpath, hyields'.unique hyields, ← getElem?_resolveMarks hgroup,
    List.reverse_reverse]

/-- Resolving a history gives an entry to each group. The entry is the last pair of the group in the
history, and it is empty if there is none. Other marks make no difference: if a mark is idle, the entry
is that of any history from which it is missing, in any tree and with any number of groups. -/
theorem resolve_lastPair (changes : List Change) (h : initial.AllowsAll changes) (last : Option Nat)
    (hlast : (initial.run changes).Knows last) :
    let t := (initial.run changes).tree
    ∃ marks, t.History last marks ∧ ∀ groups, (t.resolve last groups).size = groups + 1 ∧
      ∀ group ≤ groups,
        (∀ span, (t.resolve last groups)[group]? = some (some span) ↔ LastPair group marks span) ∧
          ((t.resolve last groups)[group]? = some none ↔ ¬ ∃ span, LastPair group marks span) ∧
          ∀ before m after, marks = before ++ m :: after → Idle group m after →
            ∀ changes', initial.AllowsAll changes' → ∀ last', (initial.run changes').Knows last' →
              (initial.run changes').tree.History last' (before ++ after) → ∀ groups' ≥ group,
                ((initial.run changes').tree.resolve last' groups')[group]? =
                  (t.resolve last groups)[group]? := by
  intro t
  have hsound := sound_initial.run h
  obtain ⟨marks, hhistory⟩ := hsound.exists_history hlast
  refine ⟨marks, hhistory, fun groups ↦ ⟨size_resolveMarks _ _, fun group hgroup ↦ ?_⟩⟩
  have hentry := hsound.getElem?_resolve hlast hhistory hgroup
  have hspan : ∀ span, (t.resolve last groups)[group]? = some (some span) ↔
      LastPair group marks span := fun span ↦ by
    rw [hentry, Option.some_inj, groupSpan?_eq_some_iff]
  refine ⟨hspan, ?_, ?_⟩
  · rw [hentry, Option.some_inj, Option.eq_none_iff_forall_ne_some, not_exists]
    exact forall_congr' fun span ↦ not_congr groupSpan?_eq_some_iff
  · rintro before m after rfl hidle changes' h' last' hlast' hhistory' groups' hgroup'
    have hentry' := (sound_initial.run h').getElem?_resolve hlast' hhistory' hgroup'
    rw [hentry', hentry, hidle.groupSpan?_eq before]

/-- A history of unbalanced and interleaved marks, and the same history with an opening at its end that
is never closed. -/
theorem resolve_lastPair_of_unbalanced :
    let changes : List Change := [.push none ⟨.opening, 1, 0⟩, .push (some 0) ⟨.opening, 2, 1⟩,
      .push (some 1) ⟨.opening, 1, 2⟩, .push (some 2) ⟨.closing, 1, 3⟩, .push (some 3) ⟨.closing, 3, 4⟩]
    let more : List Change := changes ++ [.push (some 4) ⟨.opening, 1, 4⟩]
    let t := (initial.run changes).tree
    let t' := (initial.run more).tree
    initial.AllowsAll changes ∧ initial.AllowsAll more ∧
      (t'.resolve (some 5) 3)[1]? = some (some ⟨2, 3⟩) ∧ (t'.resolve (some 5) 3)[3]? = some none ∧
      (t.resolve (some 4) 1)[1]? = (t'.resolve (some 5) 3)[1]? := by
  intro changes more t t'
  let records : List Record := [⟨some 3, ⟨.closing, 3, 4⟩⟩, ⟨some 2, ⟨.closing, 1, 3⟩⟩,
    ⟨some 1, ⟨.opening, 1, 2⟩⟩, ⟨some 0, ⟨.opening, 2, 1⟩⟩, ⟨none, ⟨.opening, 1, 0⟩⟩]
  let marks : List Mark := (records.map Record.mark).reverse
  have hallows : initial.AllowsAll changes := by decide
  have hallows' : initial.AllowsAll more := by decide
  have hyields : t.Yields (some 4) records :=
    .record rfl (.record rfl (.record rfl (.record rfl (.record rfl (.stop rfl)))))
  have hyields' : t'.Yields (some 5) (⟨some 4, ⟨.opening, 1, 4⟩⟩ :: records) :=
    .record rfl (.record rfl (.record rfl (.record rfl (.record rfl (.record rfl (.stop rfl))))))
  obtain ⟨history, ⟨records', hrecords, rfl⟩, hresolve⟩ :=
    resolve_lastPair more hallows' (some 5) (by decide)
  cases hrecords.unique hyields'
  have hgroup := (hresolve 3).2
  refine ⟨hallows, hallows', ?_, ?_, ?_⟩
  · refine ((hgroup 1 (by decide)).1 ⟨2, 3⟩).mpr ⟨marks.take 3, marks.drop 4 ++ [⟨.opening, 1, 4⟩], rfl,
      by decide, marks.take 2, [], rfl, nofun⟩
  · refine (hgroup 3 (by decide)).2.1.mpr (not_exists.mpr fun span hlast ↦ ?_)
    cases groupSpan?_eq_some_iff.mpr hlast
  · exact (hgroup 1 (by decide)).2.2 marks ⟨.opening, 1, 4⟩ [] rfl (.unclosed rfl nofun) changes hallows
      (some 4) (by decide) ⟨records, hyields, rfl⟩ 1 (by decide)

end Growth

end CaptureTree

end Lockstep

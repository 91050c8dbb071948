import Lockstep.Proofs.Capture.Groups
import Lockstep.Proofs.Scan.Skip

/-!
# The matches of a string

A scan of a string stops as soon as its first matches are final, and the next one goes on from there.
Whether one scan is made or one after another, what is found is what one attempt after another finds.
-/

namespace Lockstep

universe u

variable {α : Type u}

namespace Scan

variable {scan : Scan α} {s : String} {start : Nat} {scratch : Scratch} {whole : Ahead}
  {expected : List Found} {result : Outcome × Scratch}

theorem finish_eq (hflag : scan.flags.endBoundary = false) (scratch : Scratch) :
    scan.finish scratch = (if scratch.found.isEmpty then .notFound else .exhausted, scratch) := by
  obtain ⟨current, upcoming, captures, found⟩ := scratch
  simp [finish, hflag]

/-- The groups of buffered matches. -/
theorem captureList_eq {t : CaptureTree} {found : MatchBuffer} {limit : Nat} (h : found.Sound t limit)
    (groups : Nat) (text : Text) (outcome : Outcome) :
    Round.captureList groups text ⟨outcome, found, t⟩ =
      (found.view t).map (Found.captures groups text) := by
  rw [Round.captureList, MatchBuffer.view, List.map_map]
  exact List.map_congr_left fun c hc ↦
    Captures.ofCandidate_eq (h.plain c (List.mem_reverse.mp hc)) groups text t

theorem isEmpty_view (found : MatchBuffer) (t : CaptureTree) :
    (found.view t).isEmpty = found.isEmpty := by
  rw [MatchBuffer.view, List.isEmpty_map, MatchBuffer.toList, List.isEmpty_reverse]
  rfl

variable [Atom α]

/-- A scan that stops before the end of the text has found the first matches. -/
theorem Accounts.of_resume {offset : Nat}
    (h : scan.Accounts whole expected (.resume offset, scratch)) :
    ∃ limit prev, scratch.found.Sound scratch.captures limit ∧
      scan.decoder.ahead scan.text offset prev <:+ whole ∧
      scratch.found.view scratch.captures ++
        sequential scan.nfa.attempt (scan.decoder.ahead scan.text offset prev) = expected := by
  generalize hresult : (Outcome.resume offset, scratch) = result at h
  cases h with
  | @ended s limit hsound hview =>
    have hfinish := outcome_finish scan s
    rw [← hresult] at hfinish
    rcases hfinish with h | h <;> cases h
  | resume hflag hne hsound hsuffix hview =>
    cases hresult
    exact ⟨_, _, hsound, hsuffix, hview⟩

/-- A scan that comes to the end of the text has found all matches. -/
theorem Accounts.of_ne_resume (h : scan.Accounts whole expected result)
    (hflag : scan.flags.endBoundary = false) (hne : ∀ offset, result.1 ≠ .resume offset) :
    ∃ limit, result.2.found.Sound result.2.captures limit ∧
      result.2.found.view result.2.captures = expected := by
  cases h with
  | ended hsound hview =>
    rw [finish_eq hflag]
    exact ⟨_, hsound, hview⟩
  | resume => exact absurd rfl (hne _)

/-- A scan that finds the first matches has found nothing if and only if there is none. -/
theorem Accounts.notFound_iff (h : scan.Accounts whole expected result)
    (hflag : scan.flags.endBoundary = false) :
    result.1 = .notFound ↔ expected = [] := by
  cases h with
  | ended hsound hview =>
    rw [finish_eq hflag, ← List.isEmpty_iff, ← hview, isEmpty_view]
    split <;> simp [*]
  | resume hfinal hne hsound hsuffix hview =>
    rw [← hview, List.append_eq_nil_iff, ← List.isEmpty_iff, isEmpty_view, hne]
    simp

/-- A scan that finds the first matches has the first one first. -/
theorem Accounts.head?_captureList (h : scan.Accounts whole expected result)
    (hflag : scan.flags.endBoundary = false) (groups : Nat) (text : Text) :
    (result.2.found.toList.head?).map (Captures.ofCandidate groups text result.2.captures) =
      expected.head?.map (Found.captures groups text) := by
  cases h with
  | ended hsound hview =>
    have hlist := captureList_eq hsound groups text .exhausted
    rw [hview] at hlist
    rw [finish_eq hflag, ← List.head?_map, ← List.head?_map, ← hlist]
    rfl
  | resume hfinal hne hsound hsuffix hview =>
    rename_i scratch limit offset prev
    have hlist := captureList_eq hsound groups text .exhausted
    have hne' : (scratch.found.view scratch.captures) ≠ [] := by
      intro heq
      rw [← List.isEmpty_iff, isEmpty_view, hne] at heq
      cases heq
    obtain ⟨m, ms, hms⟩ := List.exists_cons_of_ne_nil hne'
    rw [← hview, hms, List.cons_append, List.head?_cons]
    rw [hms] at hlist
    rw [← List.head?_map]
    exact congrArg List.head? hlist

variable [LawfulAtom α]

/-- A scan from a place of a string accounts for what one attempt after another finds. -/
theorem Reads.accounts_run (h : scan.Reads s) {bs : Ahead} (hbs : Ahead.IsPlace s bs)
    (hle : bs.offset ≤ scan.text.size) (scratch : Scratch) :
    scan.Accounts (Ahead.ofString s) (sequential scan.nfa.attempt bs) (scan.run bs.offset scratch) := by
  have hplace := h.ahead_offset hbs
  have hsuffix := hbs.suffix
  rw [← hplace] at hsuffix
  have haccounts := Scan.accounts_run hle scratch hsuffix h.skipSafe
  rwa [hplace] at haccounts

/-- Scans from a place of a string on find in their rounds what one attempt after another finds. -/
theorem Reads.flatMap_drain (h : scan.Reads s) (hflag : scan.flags.endBoundary = false) (groups : Nat)
    (text : Text) {bs : Ahead} (hbs : Ahead.IsPlace s bs)
    (hstart : bs.offset = start) (hle : start ≤ scan.text.size) :
    (scan.drain start scratch).1.flatMap (Round.captureList groups text) =
      (sequential scan.nfa.attempt bs).map (Found.captures groups text) := by
  fun_induction scan.drain start scratch generalizing bs with
  | case1 start scratch offset scratch' hrun round rounds scratch'' hdrain =>
    rename_i ih
    subst hstart
    have haccounts := h.accounts_run hbs hle scratch
    rw [hrun] at haccounts
    obtain ⟨limit, prev, hsound, hsuffix, hview⟩ := haccounts.of_resume
    obtain ⟨next, rest, hahead⟩ := scan.decoder.exists_ahead_eq_cons scan.text offset prev
    rw [hahead] at hsuffix hview
    have hresume := resume_of_run (congrArg Prod.fst hrun)
    have ih := ih ⟨hsuffix, List.cons_ne_nil _ _⟩ rfl hresume.2
    rw [hdrain] at ih
    rw [List.flatMap_cons, ih, ← hview, List.map_append]
    exact congrArg (· ++ _) (captureList_eq hsound groups text _)
  | case2 start scratch outcome scratch' hne' hrun =>
    subst hstart
    have haccounts := h.accounts_run hbs hle scratch
    rw [hrun] at haccounts
    obtain ⟨limit, hsound, hview⟩ := haccounts.of_ne_resume hflag hne'
    rw [List.flatMap_singleton, ← hview]
    exact captureList_eq hsound groups text _

end Scan

namespace Nfa

variable [Atom α] {nfa : Nfa α}

theorem reads (h : ∀ bytes, nfa.startBytes? = some bytes → bytes.Sound nfa) (s : String)
    (flags : ScanFlags) : (⟨nfa, .utf8, s.toUTF8.data, flags⟩ : Scan α).Reads s := ⟨rfl, rfl, h⟩

variable [LawfulAtom α] (h : ∀ bytes, nfa.startBytes? = some bytes → bytes.Sound nfa) (s : String)

include h

theorem accounts_run (flags : ScanFlags) (scratch : Scratch) :
    let scan : Scan α := ⟨nfa, .utf8, s.toUTF8.data, flags⟩
    scan.Accounts (Ahead.ofString s) (sequential nfa.attempt (Ahead.ofString s))
      (scan.run 0 scratch) := by
  have haccounts := (reads h s flags).accounts_run (Ahead.isPlace_ofString s)
    (by rw [Ahead.offset_ofString]; exact Nat.zero_le _) scratch
  rwa [Ahead.offset_ofString] at haccounts

/-- There is a match if one of the attempts at the places of a string succeeds. -/
theorem isMatch_iff : nfa.isMatch s.toUTF8.data = true ↔
    sequential nfa.attempt (Ahead.ofString s) ≠ [] := by
  have haccounts := accounts_run h s {} .empty
  rw [isMatch, decide_eq_true_iff, ne_eq, haccounts.notFound_iff rfl]

/-- The first match of a string is that of the first attempt that succeeds. -/
theorem find?_eq : nfa.find? s.toUTF8.data = (sequential nfa.attempt (Ahead.ofString s)).head?.map
    (Found.captures nfa.groups s.toUTF8.data) := by
  have haccounts := accounts_run h s {} .empty
  have hnotFound := haccounts.notFound_iff rfl
  have hhead := haccounts.head?_captureList rfl nfa.groups s.toUTF8.data
  unfold find?
  generalize Scan.run (⟨nfa, .utf8, s.toUTF8.data, {}⟩ : Scan α) 0 .empty = result at hnotFound hhead ⊢
  obtain ⟨outcome, scratch⟩ := result
  dsimp only at hnotFound hhead ⊢
  split
  · rw [hnotFound.mp rfl]
    rfl
  · exact hhead

/-- The matches of a string are those of one attempt after another. -/
theorem findAll_eq {flags : ScanFlags} (hflag : flags.endBoundary = false) :
    nfa.findAll s.toUTF8.data .utf8 flags = (sequential nfa.attempt (Ahead.ofString s)).map
      (Found.captures nfa.groups s.toUTF8.data) :=
  (reads h s flags).flatMap_drain hflag nfa.groups s.toUTF8.data
    (Ahead.isPlace_ofString s) (Ahead.offset_ofString s) (Nat.zero_le _)

end Nfa

end Lockstep

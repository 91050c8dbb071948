import Lockstep.Proofs.Decoder.Chain
import Lockstep.Proofs.Scan.Twins

/-!
# Scanning without start bytes

A scan may skip to the next start byte when nothing but a new attempt is under way. A scan that does
not comes to the same place: it takes one new attempt after another over characters that are none of
the literals a match begins with, and nothing is recorded and nothing is found on the way. It does
not stop there either, since a scan that may stop has no matches buffered when a new attempt is
alone. What differs is the previous character, and an entry that leads to literals looks at none.
-/

namespace Lockstep

universe u

variable {α : Type u}

/-- The automaton without its start bytes. -/
def Nfa.unfiltered (nfa : Nfa α) : Nfa α := { nfa with startBytes? := none }

/-- The scan without start bytes. -/
def Scan.unfiltered (scan : Scan α) : Scan α := { scan with nfa := scan.nfa.unfiltered }

variable [Atom α]

theorem Nfa.Regular.unfiltered {nfa : Nfa α} (h : nfa.Regular) : nfa.unfiltered.Regular :=
  ⟨h.final, h.entry, nofun, nofun⟩

/-! ## Steps -/

namespace Progress

variable {nfa : Nfa α} {b : Boundary} {thread : Thread} {trs : List Transition} {p : Progress}

theorem follow_unfiltered :
    follow nfa.unfiltered b thread trs p = follow nfa b thread trs p := by
  induction trs generalizing p with
  | nil => rfl
  | cons tr trs ih =>
    have henabled : nfa.unfiltered.enabled b tr = nfa.enabled b tr := rfl
    rcases skipped_or_taken nfa b p tr with hskip | ⟨hnew, hgo⟩
    · rw [follow_skip hskip, follow_skip (henabled ▸ hskip), ih]
    · rw [follow_of_enabled hnew hgo, follow_of_enabled hnew (henabled.trans hgo), ih]
      rfl

/-- Transitions that may not be taken change nothing. -/
theorem follow_of_disabled (h : ∀ tr ∈ trs, nfa.enabled b tr = false) :
    follow nfa b thread trs p = p := by
  induction trs with
  | nil => rfl
  | cons tr trs ih =>
    rw [follow_skip (.inr (h tr List.mem_cons_self))]
    exact ih fun tr' hmem ↦ h tr' (List.mem_cons_of_mem _ hmem)

/-- Transitions that do no work do not look at the previous character. -/
theorem follow_of_plain {offset : Nat} {prev prev' next : Option Char}
    (h : ∀ tr ∈ trs, nfa.work tr = []) :
    follow nfa ⟨offset, prev, next⟩ thread trs p = follow nfa ⟨offset, prev', next⟩ thread trs p := by
  induction trs generalizing p with
  | nil => rfl
  | cons tr trs ih =>
    have ih := fun p' ↦ ih (p := p') fun tr' hmem ↦ h tr' (List.mem_cons_of_mem _ hmem)
    have henabled : nfa.enabled ⟨offset, prev, next⟩ tr = nfa.enabled ⟨offset, prev', next⟩ tr := by
      rw [Nfa.enabled, Nfa.enabled, h tr List.mem_cons_self]
      rfl
    rcases skipped_or_taken nfa ⟨offset, prev, next⟩ p tr with hskip | ⟨hnew, hgo⟩
    · rw [follow_skip hskip, follow_skip (henabled ▸ hskip), ih]
    · rw [follow_of_enabled hnew hgo, follow_of_enabled hnew (henabled.symm.trans hgo), ih]
      rfl

end Progress

namespace Scratch

variable {nfa : Nfa α} {s : Scratch} {b : Boundary} {offset : Nat}

theorem step_unfiltered (nfa : Nfa α) (b : Boundary) (s : Scratch) :
    s.step nfa.unfiltered b = s.step nfa b := by
  have hadvance : Progress.advance nfa.unfiltered b = Progress.advance nfa b := by
    funext p thread
    rw [Progress.advance, Progress.advance, Progress.follow_unfiltered]
    rfl
  obtain ⟨current, upcoming, captures, found⟩ := s
  rw [step, step, hadvance]

/-- A new attempt that is alone and may take no transition leaves the scratch as it is. -/
theorem step_of_disabled (hcurrent : s.current.threads.toList = [Thread.fresh b.offset])
    (h : ∀ tr ∈ nfa.transitions Nfa.entry, nfa.enabled b tr = false) : s.step nfa b = s := by
  obtain ⟨current, upcoming, captures, found⟩ := s
  dsimp only at hcurrent
  have hgo : ¬ ((false : Bool) && (Thread.fresh b.offset).start != b.offset) = true := by simp
  rw [step, hcurrent, List.foldl_cons, List.foldl_nil, Progress.advance, if_neg hgo,
    Progress.follow_of_disabled h]

/-- A new attempt that is alone does not look at the previous character, if the entry does no
work. -/
theorem step_of_plain (hcurrent : s.current.threads.toList = [Thread.fresh offset])
    (h : ∀ tr ∈ nfa.transitions Nfa.entry, nfa.work tr = []) (prev prev' next : Option Char) :
    s.step nfa ⟨offset, prev, next⟩ = s.step nfa ⟨offset, prev', next⟩ := by
  obtain ⟨current, upcoming, captures, found⟩ := s
  dsimp only at hcurrent
  rw [step, step, hcurrent, List.foldl_cons, List.foldl_nil, List.foldl_cons, List.foldl_nil,
    Progress.advance, Progress.advance, Progress.follow_of_plain h]

end Scratch

/-! ## The scan that does not skip -/

namespace Scan

variable {scan : Scan α} {start offset target : Nat} {c c' : Cursor} {bytes : StartBytes}

omit [Atom α] in
theorem skip_unfiltered (scan : Scan α) (c : Cursor) : scan.unfiltered.skip c = c := by
  refine skip_of_startBytes?_none ?_ c
  rw [startBytes?]
  split <;> rfl

/-- What a scan does next is to skip, and then what it would do without start bytes. -/
theorem next_eq_unfiltered (scan : Scan α) (c : Cursor) :
    scan.next c = scan.unfiltered.next (scan.skip c) := by
  unfold Scan.next
  rw [skip_unfiltered]
  generalize scan.skip c = c'
  obtain ⟨offset, prev, s⟩ := c'
  dsimp only
  have hstep : ∀ b, s.step scan.unfiltered.nfa b = s.step scan.nfa b := fun b ↦
    Scratch.step_unfiltered scan.nfa b s
  simp only [hstep]
  rfl

/-- Where a new attempt is alone and the entry does no work, the previous character does not
matter. -/
theorem next_of_plain {prev prev' : Option Char} {s : Scratch}
    (hcurrent : s.current.threads.toList = [Thread.fresh offset])
    (h : ∀ tr ∈ scan.nfa.transitions Nfa.entry, scan.nfa.work tr = []) :
    scan.unfiltered.next ⟨offset, prev, s⟩ = scan.unfiltered.next ⟨offset, prev', s⟩ := by
  have hplain : ∀ tr ∈ scan.unfiltered.nfa.transitions Nfa.entry, scan.unfiltered.nfa.work tr = [] := h
  have hstep := Scratch.step_of_plain hcurrent hplain prev prev'
  unfold Scan.next
  rw [skip_unfiltered, skip_unfiltered]
  simp only [hstep]

/-- If a scan may stop, no match is buffered where a new attempt is alone. -/
def Waits (scan : Scan α) (c : Cursor) : Prop :=
  scan.flags.noEarlyReturn = true ∨ c.scratch.current.size ≠ 1 ∨ c.scratch.found.isEmpty = true

omit [Atom α] in
theorem waits_start (scan : Scan α) (start : Nat) (prev : Option Char) (s : Scratch) :
    scan.Waits ⟨start, prev, (s.reset scan.nfa.size).anchor start⟩ := .inr (.inr rfl)

theorem waits_of_next (h : scan.next c = .inr c') : scan.Waits c' := by
  unfold Scan.next at h
  generalize scan.skip c = c₁ at h
  obtain ⟨offset, prev, s⟩ := c₁
  dsimp only at h
  split at h
  · cases h
  · rename_i char n _
    split at h
    · cases h
    · rename_i hfinal
      cases h
      generalize s.step scan.nfa ⟨offset, prev, some char⟩ = s' at hfinal
      by_cases hflag : scan.flags.noEarlyReturn = true
      · exact .inl hflag
      · by_cases hfound : s'.found.isEmpty = true
        · exact .inr (.inr hfound)
        · refine .inr (.inl fun hsize ↦ hfinal ?_)
          have hgrown : s'.upcoming.threads.size + 1 = 1 := by
            simpa [Scratch.turn, Generation.add, Generation.size] using hsize
          have hempty : s'.upcoming.isEmpty = true := by
            simpa [Generation.isEmpty] using hgrown
          simp [isFinal, hflag, hfound, hempty]

/-- A cursor with a new attempt alone, and otherwise like `s`. -/
def Idles (scan : Scan α) (s : Scratch) (c : Cursor) : Prop :=
  Frame.none.Scratches scan.nfa.size (s.anchor c.offset) c.scratch

variable {s : Scratch}

omit [Atom α] in
theorem Idles.current (h : scan.Idles s c) :
    c.scratch.current.threads.toList = [Thread.fresh c.offset] := by
  have hthreads := (Frame.generations_none_iff.mp (Frame.Scratches.current h)).2.2
  rw [hthreads]
  exact Generation.toList_threads_add _ _

variable [LawfulAtom α]

/-- Before the first start byte, a new attempt takes no transition. -/
theorem enabled_eq_false_of_lt (hregular : scan.nfa.Regular) (hlawful : scan.decoder.Lawful)
    (hbytes : scan.startBytes? = some bytes) (hfirst : bytes.FirstFrom scan.text offset target)
    {offset' n : Nat} {prev : Option Char} {char : Char} (hle : offset ≤ offset')
    (hlt : offset' < target) (hdecode : scan.decoder.decode scan.text offset' = some (char, n)) :
    ∀ tr ∈ scan.nfa.transitions Nfa.entry,
      scan.nfa.enabled ⟨offset', prev, some char⟩ tr = false := by
  obtain ⟨hascii, hstored⟩ := startBytes?_eq_some hbytes
  refine fun tr htr ↦ Nfa.enabled_eq_false (hregular.startBytes bytes hstored) ?_ htr
  intro char' hchar x hx hencode
  cases hchar
  have hlow := Nfa.lt_of_encodeChar hencode
  have hbyte := (hlawful.byte_of_ascii hascii _ _ _ _ hdecode hlow).2
  rw [Nfa.encodeChar_of_lt hlow, List.cons.injEq] at hencode
  rw [hencode.1] at hbyte
  exact hfirst.notMem offset' x hle hlt hbyte hx

omit [LawfulAtom α] in
/-- The character before the first start byte ends where that byte is, or earlier. -/
theorem add_le_of_lt (hregular : scan.nfa.Regular) (hlawful : scan.decoder.Lawful)
    (hbytes : scan.startBytes? = some bytes) (hfirst : bytes.FirstFrom scan.text offset target)
    {offset' n : Nat} {char : Char} (hlt : offset' < target)
    (hdecode : scan.decoder.decode scan.text offset' = some (char, n)) : offset' + n ≤ target := by
  obtain ⟨hascii, hstored⟩ := startBytes?_eq_some hbytes
  rcases Nat.eq_or_lt_of_le hfirst.le_size with rfl | hsize
  · exact (scan.decoder.decode_advances _ _ _ _ hdecode).2
  · have hbyte : scan.text[target]? = some scan.text[target] := Array.getElem?_eq_getElem hsize
    have hlow := (hregular.startBytes bytes hstored).ascii _ (hfirst.mem _ hbyte)
    exact hlawful.outside_of_ascii hascii _ _ _ hbyte hlow _ _ _ hlt hdecode

/-- A scan without start bytes goes on over a character that begins before the first of them, and
nothing but its place changes. -/
theorem Idles.exists_next (h : scan.Idles s c) (hregular : scan.nfa.Regular)
    (hlawful : scan.decoder.Lawful) (hbytes : scan.startBytes? = some bytes)
    (hfirst : bytes.FirstFrom scan.text offset target) (hs : s.current.Lists scan.nfa.size)
    (hvacant : s.upcoming.threads.toList = [])
    (hwaits : scan.flags.noEarlyReturn = true ∨ s.found.isEmpty = true)
    (hle : offset ≤ c.offset) (hlt : c.offset < target) :
    ∃ c', scan.unfiltered.next c = .inr c' ∧ scan.Idles s c' ∧ c.offset < c'.offset ∧
      c'.offset ≤ target := by
  have hcurrent := h.current
  obtain ⟨offset', prev, s'⟩ := c
  obtain ⟨hgeneration, hupcoming, hcaptures, hfound⟩ := h
  dsimp only at hcurrent hgeneration hupcoming hcaptures hfound hle hlt ⊢
  obtain ⟨-, hlists', -⟩ := Frame.generations_none_iff.mp hgeneration
  obtain ⟨huplists, huplists', hthreads⟩ := Frame.generations_none_iff.mp hupcoming
  have hvacant' : s'.upcoming.threads.toList = [] := hthreads.trans hvacant
  rw [Frame.buffers_none_iff] at hfound
  cases hdecode : scan.decoder.decode scan.text offset' with
  | none =>
    have hsize := (hlawful.decode_eq_none_iff _ _).mp hdecode
    exact absurd (Nat.lt_of_lt_of_le hlt hfirst.le_size) (Nat.not_lt.mpr hsize)
  | some r =>
    obtain ⟨char, n⟩ := r
    have hpos := (scan.decoder.decode_advances _ _ _ _ hdecode).1
    have hstep : s'.step scan.unfiltered.nfa ⟨offset', prev, some char⟩ = s' :=
      (Scratch.step_unfiltered _ _ _).trans (Scratch.step_of_disabled hcurrent
        (enabled_eq_false_of_lt hregular hlawful hbytes hfirst hle hlt hdecode))
    have hgoes : scan.unfiltered.isFinal s' = false := by
      have hsame : s'.found.isEmpty = s.found.isEmpty := congrArg MatchBuffer.isEmpty hfound
      show (!scan.flags.noEarlyReturn && s'.upcoming.isEmpty && !s'.found.isEmpty) = false
      rw [hsame]
      rcases hwaits with hflag | hempty
      · rw [hflag]
        rfl
      · rw [hempty]
        simp
    refine ⟨⟨offset' + n, some char, s'.turn (offset' + n)⟩, ?_, ?_,
      Nat.lt_add_of_pos_right hpos, add_le_of_lt hregular hlawful hbytes hfirst hlt hdecode⟩
    · have hstepped : scan.unfiltered.stepped ⟨offset', prev, s'⟩ (some char) = s' := by
        rw [stepped, skip_unfiltered]
        exact hstep
      rw [next_of_some (by rw [skip_unfiltered]; exact hdecode), skip_unfiltered, hstepped, hgoes,
        if_neg Bool.false_ne_true]
    · have hnew : s'.upcoming.contains Nfa.entry = false := by
        refine Bool.eq_false_iff.mpr fun hcontains ↦ ?_
        obtain ⟨t, ht, -⟩ := huplists'.contains_iff.mp hcontains
        rw [hvacant'] at ht
        cases ht
      refine ⟨Frame.generations_none_iff.mpr ⟨?_, ?_, ?_⟩,
        Frame.generations_none_iff.mpr ⟨huplists, hlists'.clear, hvacant.symm⟩, hcaptures,
        Frame.buffers_none_iff.mpr hfound⟩
      · exact (Scratch.anchor?_eq hs hregular.entry_lt (offset' + n)).2
      · exact huplists'.add (t := Thread.fresh (offset' + n)) hregular.entry_lt hnew
      · show (s'.upcoming.add _).threads.toList = (s.current.clear.add _).threads.toList
        rw [Generation.toList_threads_add, Generation.toList_threads_add, hvacant']
        rfl

/-- A scan without start bytes comes to the first of them with a new attempt alone. -/
theorem Idles.exists_runFrom (h : scan.Idles s c) (hregular : scan.nfa.Regular)
    (hlawful : scan.decoder.Lawful) (hbytes : scan.startBytes? = some bytes)
    (hfirst : bytes.FirstFrom scan.text offset target) (hs : s.current.Lists scan.nfa.size)
    (hvacant : s.upcoming.threads.toList = [])
    (hwaits : scan.flags.noEarlyReturn = true ∨ s.found.isEmpty = true)
    (hle : offset ≤ c.offset) (hle' : c.offset ≤ target) :
    ∃ c', scan.Idles s c' ∧ c'.offset = target ∧
      scan.unfiltered.runFrom c = scan.unfiltered.runFrom c' := by
  induction hleft : target - c.offset using Nat.strongRecOn generalizing c with
  | ind left ih =>
    rcases Nat.eq_or_lt_of_le hle' with heq | hlt
    · exact ⟨c, h, heq, rfl⟩
    · obtain ⟨c₁, hnext, hidles, hlt₁, hle₁⟩ := h.exists_next hregular hlawful hbytes hfirst hs
        hvacant hwaits hle hlt
      obtain ⟨c', hidles', htarget, hrun⟩ := ih (target - c₁.offset) (by omega) hidles
        (Nat.le_trans hle (Nat.le_of_lt hlt₁)) hle₁ rfl
      exact ⟨c', hidles', htarget, (runFrom_of_inr hnext).trans hrun⟩

/-- Where a scan goes on after a skip, a scan without start bytes comes to a twin, but for the
previous character, which does not matter there. -/
theorem exists_twin_of_skip (hregular : scan.nfa.Regular) (hlawful : scan.decoder.Lawful)
    (h : scan.unfiltered.Twins start c c') (hwaits : scan.Waits c) :
    ∃ c₁ c₁', scan.unfiltered.Twins start c₁ c₁' ∧ scan.next c = scan.unfiltered.next c₁ ∧
      scan.unfiltered.runFrom c' = scan.unfiltered.runFrom c₁' := by
  by_cases hskips : scan.Skips c
  case neg => exact ⟨c, c', h, by rw [next_eq_unfiltered, skip_of_not_skips hskips], rfl⟩
  case pos =>
  have hskip := skip_of_skips hskips
  obtain ⟨hsize, hlt⟩ := hskips
  obtain ⟨bytes, hbytes⟩ : ∃ bytes, scan.startBytes? = some bytes := by
    refine Option.ne_none_iff_exists'.mp fun hnone ↦ Nat.lt_irrefl c.offset ?_
    rwa [startOffset, hnone] at hlt
  have hplain := hregular.plain (by rw [(startBytes?_eq_some hbytes).2]; rfl)
  obtain ⟨⟨older, hs⟩, hstart, hle⟩ := h.inOrder
  have hfirst := firstFrom_startOffset hbytes hle
  cases hs.ready.older_eq_nil hsize
  have hcurrent : ∀ offset, (c.scratch.anchor offset).current.threads.toList = [Thread.fresh offset] :=
    fun offset ↦ Generation.toList_threads_add _ _
  have hidles : scan.Idles c.scratch c' := by
    have htwins := Frame.generations_none_iff.mp h.scratch.current
    refine ⟨Frame.generations_none_iff.mpr ⟨?_, htwins.2.1, ?_⟩, h.scratch.upcoming,
      h.scratch.captures, h.scratch.found⟩
    · exact (Scratch.anchor?_eq hs.current hregular.entry_lt c'.offset).2
    · rw [hcurrent, htwins.2.2, hs.ready.current, h.offset]
      rfl
  obtain ⟨c₁', hidles', htarget, hrun⟩ := hidles.exists_runFrom hregular hlawful hbytes hfirst
    hs.current hs.ready.upcoming.threads (hwaits.imp_right fun h ↦ h.resolve_left (absurd hsize))
    (Nat.le_of_eq h.offset) (h.offset ▸ Nat.le_of_lt hlt)
  have hle₁ : c.offset ≤ c₁'.offset := htarget ▸ Nat.le_of_lt hlt
  refine ⟨⟨c₁'.offset, c₁'.prev, c.scratch.anchor c₁'.offset⟩, c₁', ⟨⟨⟨[], ?_⟩,
    Nat.le_trans hstart hle₁, htarget ▸ hfirst.le_size⟩, rfl, rfl, hidles'⟩, ?_, hrun⟩
  · exact hs.anchor hregular.unfiltered hle₁
  · rw [← htarget] at hskip
    rw [next_eq_unfiltered, hskip]
    exact next_of_plain (hcurrent _) hplain

/-- A scan comes to the same end as the one without start bytes. -/
theorem same_runFrom_unfiltered (hregular : scan.nfa.Regular) (hlawful : scan.decoder.Lawful)
    (h : scan.unfiltered.Twins start c c') (hwaits : scan.Waits c) :
    Same (scan.runFrom c) (scan.unfiltered.runFrom c') := by
  fun_induction scan.runFrom c generalizing c' with
  | case1 c result hnext =>
    obtain ⟨c₁, c₁', htwins, hskip, hrun⟩ := exists_twin_of_skip hregular hlawful h hwaits
    have halike := htwins.next hregular.unfiltered
    rw [← hskip, hnext] at halike
    rw [hrun]
    generalize hnext' : scan.unfiltered.next c₁' = next' at halike
    cases halike with
    | same hsame =>
      rw [runFrom_of_inl hnext']
      exact hsame
  | case2 c c₂ hnext ih =>
    obtain ⟨c₁, c₁', htwins, hskip, hrun⟩ := exists_twin_of_skip hregular hlawful h hwaits
    have halike := htwins.next hregular.unfiltered
    rw [← hskip, hnext] at halike
    rw [hrun]
    generalize hnext' : scan.unfiltered.next c₁' = next' at halike
    cases halike with
    | twins htwins =>
      rw [runFrom_of_inr hnext']
      exact ih htwins (waits_of_next hnext)

/-- Start bytes do not show: with them and without them, a scan has the same outcome, and leaves the
same matches and the same records. -/
theorem same_run_unfiltered {limit : Nat} {nodes : List (Node α)} {nfa : Nfa α}
    (h : Nfa.compile limit nodes = .ok nfa) {decoder : Decoder} (hdecoder : decoder.Lawful)
    (text : Text) (flags : ScanFlags) (start : Nat) (s : Scratch) :
    let scan : Scan α := ⟨nfa, decoder, text, flags⟩
    Same (scan.run start s) (scan.unfiltered.run start s) := by
  intro scan
  have hregular : scan.nfa.Regular := Nfa.regular_of_compile h
  rw [run, run]
  by_cases hlt : scan.text.size < start
  · rw [if_pos hlt, if_pos (show scan.unfiltered.text.size < start from hlt)]
    exact ⟨rfl, rfl, rfl⟩
  · have hinOrder : scan.unfiltered.InOrder start _ := inOrder_start hregular.unfiltered s
      (scan.decoder.before? scan.text start) (Nat.not_lt.mp hlt)
    obtain ⟨older, hs⟩ := hinOrder.scratch
    have htwins : scan.unfiltered.Twins start _ _ := ⟨hinOrder, rfl, rfl,
      Frame.generations_none_iff.mpr ⟨hs.current, hs.current, rfl⟩,
      Frame.generations_none_iff.mpr ⟨hs.upcoming, hs.upcoming, rfl⟩,
      Frame.trees_none_iff.mpr rfl, Frame.buffers_none_iff.mpr rfl⟩
    rw [if_neg hlt, if_neg (show ¬ scan.unfiltered.text.size < start from hlt)]
    exact same_runFrom_unfiltered hregular hdecoder htwins (waits_start scan start _ s)

/-- Matches of `(a|b)c`, which begin with one of two bytes. -/
theorem same_run_unfiltered_of_two_bytes :
    ∃ nfa : Nfa Char,
      Nfa.compile 10 [.atom 'a', .atom 'b', .alternate, .atom 'c', .concat] = .ok nfa ∧
        nfa.startBytes? = some ⟨[97, 98]⟩ ∧ Decoder.latin1.Lawful ∧
          let scan : Scan Char := ⟨nfa, .latin1, #[120, 98, 233, 97, 99, 120], ⟨true, false⟩⟩
          Same (scan.run 1 .empty) (scan.unfiltered.run 1 .empty) := by
  obtain ⟨nfa, h, hbytes⟩ : ∃ nfa : Nfa Char,
      Nfa.compile 10 [.atom 'a', .atom 'b', .alternate, .atom 'c', .concat] = .ok nfa ∧
        nfa.startBytes? = some ⟨[97, 98]⟩ := ⟨_, rfl, by decide +kernel⟩
  exact ⟨nfa, h, hbytes, Latin1.lawful, same_run_unfiltered h Latin1.lawful _ _ 1 .empty⟩

end Scan

end Lockstep

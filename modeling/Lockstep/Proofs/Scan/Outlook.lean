import Lockstep.Proofs.Capture.History

/-!
# What a scan has in prospect

A scan holds threads of many attempts and matches that may yet be superseded. What it has in
prospect is decided by the first of its threads, in order of preference, whose search succeeds:
that match supersedes the buffered ones that do not begin before it, and the matches after it are
those of one attempt after another from where it stops. If no thread succeeds, the buffered matches
stay. A step changes how much of the prospect is written down, but not the prospect: this module
shows it for each thread that a step takes over a boundary.
-/

namespace Lockstep

universe u

variable {α : Type u}

/-! ## Buffered matches -/

/-- A candidate as a match, with its marks read from the tree. -/
def Found.ofCandidate (t : CaptureTree) (c : Candidate) : Found :=
  ⟨c.span, (t.path c.captures).reverse⟩

namespace MatchBuffer

/-- The buffered matches in text order, with their marks. -/
def view (found : MatchBuffer) (t : CaptureTree) : List Found :=
  found.toList.map (Found.ofCandidate t)

/-- Each buffered match begins before the ones after it. -/
def Sorted (found : MatchBuffer) : Prop :=
  found.latestFirst.Pairwise fun c c' ↦ c'.span.start < c.span.start

/-- Buffered candidates of the expression, with histories in the tree. -/
structure Sound (found : MatchBuffer) (t : CaptureTree) (limit : Nat) : Prop where
  sorted : found.Sorted
  names : ∀ c ∈ found.latestFirst, t.Names c.captures
  start_lt : ∀ c ∈ found.latestFirst, c.span.start < limit
  plain : ∀ c ∈ found.latestFirst, c.synthetic = false

theorem dropWhile_eq_filter {l : List Candidate} (start : Nat)
    (h : l.Pairwise fun c c' ↦ c'.span.start < c.span.start) :
    l.dropWhile (fun old ↦ start ≤ old.span.start) = l.filter (·.span.start < start) := by
  induction l with
  | nil => rfl
  | cons c l ih =>
    obtain ⟨hc, hl⟩ := List.pairwise_cons.mp h
    by_cases hle : start ≤ c.span.start
    · rw [List.dropWhile_cons_of_pos (by simpa using hle), ih hl, List.filter_cons_of_neg]
      simpa using hle
    · have hall : ∀ c' ∈ c :: l, decide (c'.span.start < start) = true := by
        intro c' hc'
        have hlt : c'.span.start ≤ c.span.start := by
          rcases List.mem_cons.mp hc' with rfl | hc'
          · exact Nat.le_refl _
          · exact Nat.le_of_lt (hc c' hc')
        exact decide_eq_true (by omega)
      rw [List.dropWhile_cons_of_neg (by simpa using hle), List.filter_eq_self.mpr hall]

variable {found : MatchBuffer} {t t' : CaptureTree} {limit limit' : Nat}

theorem latestFirst_insert (h : found.Sorted) (c : Candidate) :
    (found.insert c).latestFirst =
      c :: found.latestFirst.filter (·.span.start < c.span.start) := by
  rw [insert, dropWhile_eq_filter c.span.start h]

theorem Sorted.insert (h : found.Sorted) (c : Candidate) : (found.insert c).Sorted := by
  rw [Sorted, latestFirst_insert h]
  refine List.pairwise_cons.mpr ⟨fun c' hc' ↦ ?_, h.filter _⟩
  exact of_decide_eq_true (List.mem_filter.mp hc').2

/-- A candidate supersedes the ones that do not begin before it, and only those. -/
theorem toList_insert (h : found.Sorted) (c : Candidate) :
    (found.insert c).toList = found.toList.filter (·.span.start < c.span.start) ++ [c] := by
  rw [toList, latestFirst_insert h, List.reverse_cons, toList, List.filter_reverse]

theorem view_extends (h : found.Sound t limit) (hext : t'.Extends t) :
    found.view t' = found.view t := by
  apply List.map_congr_left
  intro c hc
  rw [Found.ofCandidate, hext.path_eq (h.names c (List.mem_reverse.mp hc))]
  rfl

theorem start_lt_of_mem_view (h : found.Sound t limit) {m : Found} (hm : m ∈ found.view t) :
    m.span.start < limit := by
  obtain ⟨c, hc, rfl⟩ := List.mem_map.mp hm
  exact h.start_lt c (List.mem_reverse.mp hc)

theorem view_insert (h : found.Sorted) (c : Candidate) :
    (found.insert c).view t =
      (found.view t).filter (·.span.start < c.span.start) ++ [.ofCandidate t c] := by
  rw [view, toList_insert h, List.map_append, view, List.filter_map]
  rfl

theorem Sound.mono (h : found.Sound t limit) (hext : t'.Extends t) (hle : limit ≤ limit') :
    found.Sound t' limit' where
  sorted := h.sorted
  names c hc := (h.names c hc).mono hext
  start_lt c hc := Nat.lt_of_lt_of_le (h.start_lt c hc) hle
  plain := h.plain

theorem Sound.insert (h : found.Sound t limit) {c : Candidate} (hnames : t.Names c.captures)
    (hlt : c.span.start < limit) (hplain : c.synthetic = false) : (found.insert c).Sound t limit := by
  have hmem : ∀ c' ∈ (found.insert c).latestFirst,
      c' = c ∨ (c' ∈ found.latestFirst ∧ c'.span.start < c.span.start) := by
    intro c' hc'
    rw [latestFirst_insert h.sorted, List.mem_cons, List.mem_filter, decide_eq_true_iff] at hc'
    exact hc'
  constructor
  case sorted => exact h.sorted.insert c
  case names =>
    intro c' hc'
    rcases hmem c' hc' with rfl | ⟨hc', -⟩
    · exact hnames
    · exact h.names c' hc'
  case start_lt =>
    intro c' hc'
    rcases hmem c' hc' with rfl | ⟨hc', -⟩
    · exact hlt
    · exact h.start_lt c' hc'
  case plain =>
    intro c' hc'
    rcases hmem c' hc' with rfl | ⟨hc', -⟩
    · exact hplain
    · exact h.plain c' hc'

theorem sound_empty (t : CaptureTree) (limit : Nat) : MatchBuffer.empty.Sound t limit :=
  ⟨List.Pairwise.nil, nofun, nofun, nofun⟩

end MatchBuffer

/-! ## What a thread will find -/

/-- Where matching goes on after a match that began at `start` and stops at `stop`, seen from the
boundaries `bs`: a match of the empty text at the first of them is followed by the next boundary. -/
def onward (start : Nat) (bs stop : Ahead) : Ahead :=
  if start = bs.offset ∧ ¬ stop.length < bs.length then bs.tail else stop

theorem onward_of_lt {start : Nat} {bs stop : Ahead} (h : stop.length < bs.length) :
    onward start bs stop = stop := if_neg fun hand ↦ hand.2 h

theorem onward_of_ne {start : Nat} {bs stop : Ahead} (h : start ≠ bs.offset) :
    onward start bs stop = stop := if_neg fun hand ↦ h hand.1

/-- What follows a match, with the match: nothing is known but the matches from `rest` on if there
is none. -/
def onwardMatches (attempt : Ahead → Option (Ahead × List Mark)) (rest : Ahead) :
    Option (Found × Ahead) → List Found
  | none => sequential attempt rest
  | some (m, stop) => m :: sequential attempt stop

/-- The matches that stay when the next one is known. -/
def staying (kept : List Found) : Option (Found × Ahead) → List Found
  | none => kept
  | some (m, _) => kept.filter (·.span.start < m.span.start)

namespace Thread

/-- The match that a search result makes of a thread, and where matching goes on after it. -/
def report (t : CaptureTree) (bs : Ahead) (thread : Thread) (r : Ahead × List Mark) :
    Found × Ahead :=
  (⟨⟨thread.start, r.1.offset⟩, (t.path thread.captures).reverse ++ r.2⟩,
    onward thread.start bs r.1)

variable [Atom α]

/-- The match that a thread will find, if its search succeeds. -/
def prospect (nfa : Nfa α) (t : CaptureTree) (bs : Ahead) (thread : Thread) :
    Option (Found × Ahead) :=
  (nfa.search bs thread.state).map (thread.report t bs)

/-- The match that a thread will find along one of its transitions. -/
def along (nfa : Nfa α) (t : CaptureTree) (b : Boundary) (rest : Ahead) (thread : Thread)
    (tr : Transition) : Option (Found × Ahead) :=
  (nfa.along b rest tr).map (thread.report t (b :: rest))

theorem prospect_cons (nfa : Nfa α) (t : CaptureTree) (b : Boundary) (rest : Ahead)
    (thread : Thread) : thread.prospect nfa t (b :: rest) =
      (nfa.transitions thread.state).findSome? (thread.along nfa t b rest) := by
  rw [prospect, Nfa.search_cons, List.map_findSome?]
  rfl

theorem report_extends {t t' : CaptureTree} {thread : Thread} (h : t.Names thread.captures)
    (hext : t'.Extends t) (bs : Ahead) : thread.report t' bs = thread.report t bs := by
  funext r
  rw [report, hext.path_eq h, report]

theorem prospect_extends {t t' : CaptureTree} {thread : Thread} (h : t.Names thread.captures)
    (hext : t'.Extends t) (nfa : Nfa α) (bs : Ahead) :
    thread.prospect nfa t' bs = thread.prospect nfa t bs := by
  rw [prospect, report_extends h hext, prospect]

theorem along_extends {t t' : CaptureTree} {thread : Thread} (h : t.Names thread.captures)
    (hext : t'.Extends t) (nfa : Nfa α) (b : Boundary) (rest : Ahead) :
    thread.along nfa t' b rest = thread.along nfa t b rest := by
  funext tr
  rw [along, report_extends h hext, along]

theorem start_of_prospect {nfa : Nfa α} {t : CaptureTree} {bs : Ahead} {thread : Thread}
    {r : Found × Ahead} (h : thread.prospect nfa t bs = some r) :
    r.1.span.start = thread.start := by
  obtain ⟨s, -, rfl⟩ := Option.map_eq_some_iff.mp h
  rfl

end Thread

variable [Atom α]

/-- The first match that threads will find, in order of preference. -/
def prospects (nfa : Nfa α) (t : CaptureTree) (bs : Ahead) (threads : List Thread) :
    Option (Found × Ahead) :=
  threads.findSome? (Thread.prospect nfa t bs)

theorem prospects_append (nfa : Nfa α) (t : CaptureTree) (bs : Ahead)
    (threads threads' : List Thread) :
    prospects nfa t bs (threads ++ threads') =
      (prospects nfa t bs threads).or (prospects nfa t bs threads') := List.findSome?_append

theorem prospects_singleton (nfa : Nfa α) (t : CaptureTree) (bs : Ahead) (thread : Thread) :
    prospects nfa t bs [thread] = thread.prospect nfa t bs := List.findSome?_singleton

theorem prospects_cons (nfa : Nfa α) (t : CaptureTree) (bs : Ahead) (thread : Thread)
    (threads : List Thread) : prospects nfa t bs (thread :: threads) =
      (thread.prospect nfa t bs).or (prospects nfa t bs threads) := by
  rw [← prospects_singleton nfa t bs thread, ← prospects_append, List.singleton_append]

theorem prospects_extends {nfa : Nfa α} {t t' : CaptureTree} {threads : List Thread}
    (h : ∀ thread ∈ threads, t.Names thread.captures) (hext : t'.Extends t) (bs : Ahead) :
    prospects nfa t' bs threads = prospects nfa t bs threads := by
  induction threads with
  | nil => rfl
  | cons thread threads ih =>
    have hhead := Thread.prospect_extends (h thread List.mem_cons_self) hext nfa bs
    have htail := ih fun thread' hmem ↦ h thread' (List.mem_cons_of_mem _ hmem)
    rw [prospects_cons, prospects_cons, hhead, htail]

theorem exists_start_of_prospects {nfa : Nfa α} {t : CaptureTree} {bs : Ahead}
    {threads : List Thread} {r : Found × Ahead} (h : prospects nfa t bs threads = some r) :
    ∃ thread ∈ threads, r.1.span.start = thread.start := by
  obtain ⟨thread, hmem, hthread⟩ := List.exists_of_findSome?_eq_some h
  exact ⟨thread, hmem, Thread.start_of_prospect hthread⟩

/-- The matches that will have been found in the end: `r` is the first one that a thread under way
will find, `kept` are the ones buffered, and a new attempt begins at `rest`. -/
def outcome (nfa : Nfa α) (kept : List Found) (rest : Ahead) (r : Option (Found × Ahead)) :
    List Found :=
  staying kept r ++ onwardMatches nfa.attempt rest r

variable {nfa : Nfa α} {kept : List Found} {m : Found}

/-- A match still to be found supersedes a buffered one that begins no earlier. -/
theorem outcome_supersede {r : Found × Ahead} (hle : r.1.span.start ≤ m.span.start) (rest : Ahead) :
    outcome nfa (kept.filter (·.span.start < m.span.start) ++ [m]) rest (some r) =
      outcome nfa kept rest (some r) := by
  have hm : [m].filter (·.span.start < r.1.span.start) = [] :=
    List.filter_cons_of_neg (by simpa using hle)
  have hkept : (kept.filter (·.span.start < m.span.start)).filter (·.span.start < r.1.span.start) =
      kept.filter (·.span.start < r.1.span.start) := by
    rw [List.filter_filter]
    apply List.filter_congr
    intro m' _
    rw [← Bool.decide_and, decide_eq_decide]
    exact ⟨fun h ↦ h.1, fun h ↦ ⟨h, Nat.lt_of_lt_of_le h hle⟩⟩
  rw [outcome, outcome, staying, List.filter_append, hkept, hm, List.append_nil]
  rfl

/-- Buffering a match keeps the outcome, if `later` is what is left to be found after it. -/
theorem outcome_insert {limit : Nat} {rest stop : Ahead} {later : Option (Found × Ahead)}
    (hkept : ∀ m' ∈ kept, m'.span.start < limit)
    (hlater : ∀ r ∈ later, limit ≤ r.1.span.start ∧ m.span.start < r.1.span.start)
    (honward : sequential nfa.attempt stop = onwardMatches nfa.attempt rest later) :
    outcome nfa (kept.filter (·.span.start < m.span.start) ++ [m]) rest later =
      outcome nfa kept rest (some (m, stop)) := by
  have hstaying : staying (kept.filter (·.span.start < m.span.start) ++ [m]) later =
      kept.filter (·.span.start < m.span.start) ++ [m] := by
    cases later with
    | none => rfl
    | some r =>
      obtain ⟨hlimit, hlt⟩ := hlater r rfl
      refine List.filter_eq_self.mpr fun m' hm' ↦ decide_eq_true ?_
      rcases List.mem_append.mp hm' with hm' | hm'
      · exact Nat.lt_of_lt_of_le (hkept m' (List.mem_filter.mp hm').1) hlimit
      · cases List.mem_singleton.mp hm'
        exact hlt
  rw [outcome, hstaying, ← honward, List.append_assoc]
  rfl

end Lockstep

import Lockstep.Decoder
import Lockstep.Scan.Step

/-!
# Texts as boundaries

A matcher that looks at one place of a text after another needs no offsets to move by: it needs the
boundaries from the place on, each with its offset and the characters on both sides. This module
turns a text into that list, by a decoder or from the characters of a string, and says what the
matches of a text are for a matcher that attempts a match at one place: they are found one after
the other, each as far left as possible.
-/

namespace Lockstep

/-- What lies ahead at a place of a text: the boundary there and all later ones. -/
abbrev Ahead : Type := List Boundary

namespace Ahead

/-- The offset of the first boundary. -/
def offset : Ahead → Nat
  | [] => 0
  | b :: _ => b.offset

@[simp] theorem offset_cons (b : Boundary) (bs : Ahead) : offset (b :: bs) = b.offset := rfl

/-- The boundaries around characters of which the first begins at `offset`, after `prev`. -/
def ofChars (offset : Nat) (prev : Option Char) : List Char → Ahead
  | [] => [⟨offset, prev, none⟩]
  | c :: cs => ⟨offset, prev, some c⟩ :: ofChars (offset + c.utf8Size) (some c) cs

/-- The boundaries of a string, at the offsets of its UTF-8 bytes. -/
def ofString (s : String) : Ahead := ofChars 0 none s.toList

/-- What lies ahead at one of the boundaries of a string. -/
structure IsPlace (s : String) (bs : Ahead) : Prop where
  suffix : bs <:+ ofString s
  ne_nil : bs ≠ []

theorem IsPlace.of_suffix {s : String} {bs bs' : Ahead} (h : IsPlace s bs) (hsuffix : bs' <:+ bs)
    (hne : bs' ≠ []) : IsPlace s bs' := ⟨hsuffix.trans h.suffix, hne⟩

/-- Offsets grow from one boundary to the next. -/
def Ordered (bs : Ahead) : Prop := bs.Pairwise fun b b' ↦ b.offset < b'.offset

theorem Ordered.lt {b b' : Boundary} {bs : Ahead} (h : Ordered (b :: bs)) (hb : b' ∈ bs) :
    b.offset < b'.offset := (List.pairwise_cons.mp h).1 b' hb

theorem Ordered.suffix {bs bs' : Ahead} (h : Ordered bs) (hsuffix : bs' <:+ bs) : Ordered bs' :=
  List.Pairwise.sublist hsuffix.sublist h

/-- The places ahead are further on. -/
theorem Ordered.offset_le {bs bs' : Ahead} (h : Ordered bs) (hsuffix : bs' <:+ bs) (hne : bs' ≠ []) :
    bs.offset ≤ bs'.offset := by
  obtain ⟨b', rest', rfl⟩ := List.exists_cons_of_ne_nil hne
  obtain ⟨skipped, rfl⟩ := hsuffix
  cases skipped with
  | nil => exact Nat.le_refl _
  | cons b skipped => exact Nat.le_of_lt (h.lt (List.mem_append_right _ List.mem_cons_self))

end Ahead

/-! ## Reading a text with a decoder -/

namespace Decoder

/-- The boundaries that a decoder comes to when it reads a text from `offset` on, where `prev` is
the character before. -/
def ahead (d : Decoder) (text : Text) (offset : Nat) (prev : Option Char) : Ahead :=
  match _h : d.decode text offset with
  | none => [⟨offset, prev, none⟩]
  | some (c, n) => ⟨offset, prev, some c⟩ :: d.ahead text (offset + n) (some c)
termination_by text.size - offset
decreasing_by
  have := d.decode_advances text offset c n _h
  omega

variable {d : Decoder} {text : Text} {offset : Nat} {prev : Option Char}

theorem ahead_of_none (h : d.decode text offset = none) :
    d.ahead text offset prev = [⟨offset, prev, none⟩] := by
  rw [ahead]
  split
  · rfl
  · simp_all

theorem ahead_of_some {c : Char} {n : Nat} (h : d.decode text offset = some (c, n)) :
    d.ahead text offset prev =
      ⟨offset, prev, some c⟩ :: d.ahead text (offset + n) (some c) := by
  rw [ahead]
  split
  · simp_all
  · rename_i c' n' h'
    cases h.symm.trans h'
    rfl

/-- The first boundary is the one at the offset where the decoder begins. -/
theorem exists_ahead_eq_cons (d : Decoder) (text : Text) (offset : Nat) (prev : Option Char) :
    ∃ next rest, d.ahead text offset prev = ⟨offset, prev, next⟩ :: rest := by
  cases h : d.decode text offset with
  | none => exact ⟨none, [], ahead_of_none h⟩
  | some r => exact ⟨some r.1, _, ahead_of_some h⟩

theorem le_offset_of_mem_ahead {b : Boundary} (hb : b ∈ d.ahead text offset prev) :
    offset ≤ b.offset := by
  fun_induction d.ahead text offset prev with
  | case1 offset prev hdecode =>
    cases List.mem_singleton.mp hb
    exact Nat.le_refl _
  | case2 offset prev c n hdecode ih =>
    rcases List.mem_cons.mp hb with rfl | hb
    · exact Nat.le_refl _
    · exact Nat.le_trans (Nat.le_add_right _ _) (ih hb)

/-- A decoder moves forward, so the boundaries it comes to are in order. -/
theorem ordered_ahead (d : Decoder) (text : Text) (offset : Nat) (prev : Option Char) :
    (d.ahead text offset prev).Ordered := by
  fun_induction d.ahead text offset prev with
  | case1 offset prev hdecode => exact List.pairwise_singleton _ _
  | case2 offset prev c n hdecode ih =>
    refine List.pairwise_cons.mpr ⟨fun b hb ↦ ?_, ih⟩
    have hpos := (d.decode_advances text offset c n hdecode).1
    have hle := le_offset_of_mem_ahead hb
    dsimp only
    omega

end Decoder

/-! ## One match after another -/

/-- A match: its span, and the marks recorded on the way, in order. -/
structure Found where
  span : Span
  marks : List Mark
deriving DecidableEq, Repr

/-- The matches of a text for a matcher that attempts one match at a place and says where it stops.
The first match is the one at the first place where an attempt succeeds. The next one is looked for
from where it stops, or from the next boundary after a match of the empty text. -/
def sequential (attempt : Ahead → Option (Ahead × List Mark)) : Ahead → List Found
  | [] => []
  | b :: rest =>
    match attempt (b :: rest) with
    | none => sequential attempt rest
    | some (stop, marks) =>
      ⟨⟨b.offset, stop.offset⟩, marks⟩ ::
        if stop.length < (b :: rest).length then sequential attempt stop
        else sequential attempt rest
termination_by bs => bs.length
decreasing_by
  · exact Nat.lt_succ_self _
  · assumption
  · exact Nat.lt_succ_self _

variable {attempt : Ahead → Option (Ahead × List Mark)}

@[simp] theorem sequential_nil : sequential attempt [] = [] := by
  rw [sequential]

theorem sequential_of_none {b : Boundary} {rest : Ahead} (h : attempt (b :: rest) = none) :
    sequential attempt (b :: rest) = sequential attempt rest := by
  rw [sequential, h]

theorem sequential_of_some {b : Boundary} {rest stop : Ahead} {marks : List Mark}
    (h : attempt (b :: rest) = some (stop, marks)) :
    sequential attempt (b :: rest) =
      ⟨⟨b.offset, stop.offset⟩, marks⟩ ::
        sequential attempt (if stop.length < (b :: rest).length then stop else rest) := by
  rw [sequential, h]
  dsimp only
  split <;> rfl

/-- The first match is that of the first attempt that succeeds. -/
theorem sequential_eq_nil_or_exists (attempt : Ahead → Option (Ahead × List Mark)) (bs : Ahead) :
    (sequential attempt bs = [] ∧ ∀ bs', bs' <:+ bs → bs' ≠ [] → attempt bs' = none) ∨
      ∃ (bs' stop : Ahead) (marks : List Mark) (later : List Found), bs' <:+ bs ∧ bs' ≠ [] ∧
        attempt bs' = some (stop, marks) ∧
        sequential attempt bs = ⟨⟨bs'.offset, stop.offset⟩, marks⟩ :: later ∧
        ∀ bs'', bs'' <:+ bs → bs'' ≠ [] → attempt bs'' ≠ none → bs'' <:+ bs' := by
  induction bs with
  | nil => exact .inl ⟨sequential_nil, fun bs' h hne ↦ absurd (List.suffix_nil.mp h) hne⟩
  | cons b rest ih =>
    cases hattempt : attempt (b :: rest) with
    | some r =>
      exact .inr ⟨b :: rest, r.1, r.2, _, List.suffix_rfl, List.cons_ne_nil _ _, hattempt,
        sequential_of_some hattempt, fun _ h _ _ ↦ h⟩
    | none =>
      rw [sequential_of_none hattempt]
      rcases ih with ⟨hnil, hnone⟩ | ⟨bs', stop, marks, later, hsuffix, hne, hsome, heq, hfirst⟩
      · refine .inl ⟨hnil, fun bs' h hne ↦ ?_⟩
        rcases List.suffix_cons_iff.mp h with rfl | h
        · exact hattempt
        · exact hnone bs' h hne
      · refine .inr ⟨bs', stop, marks, later, hsuffix.trans (List.suffix_cons _ _), hne, hsome, heq,
          fun bs'' h hne' hsome' ↦ ?_⟩
        rcases List.suffix_cons_iff.mp h with rfl | h
        · exact absurd hattempt hsome'
        · exact hfirst bs'' h hne' hsome'

/-- Only the attempts at places that the matcher comes to matter. -/
theorem sequential_congr {attempt' : Ahead → Option (Ahead × List Mark)} {P : Ahead → Prop}
    (htail : ∀ b rest, P (b :: rest) → rest ≠ [] → P rest)
    (hstop : ∀ bs stop marks, P bs → attempt bs = some (stop, marks) → P stop)
    (h : ∀ bs, P bs → attempt bs = attempt' bs) {bs : Ahead} (hbs : P bs) :
    sequential attempt bs = sequential attempt' bs := by
  induction hn : bs.length using Nat.strongRecOn generalizing bs with | _ n ih
  subst hn
  cases bs with
  | nil => rw [sequential_nil, sequential_nil]
  | cons b rest =>
    have hrest : sequential attempt rest = sequential attempt' rest := by
      by_cases hne : rest = []
      · rw [hne, sequential_nil, sequential_nil]
      · exact ih rest.length (Nat.lt_succ_self _) (htail b rest hbs hne) rfl
    cases hattempt : attempt (b :: rest) with
    | none => rw [sequential_of_none hattempt, sequential_of_none (h _ hbs ▸ hattempt), hrest]
    | some r =>
      obtain ⟨stop, marks⟩ := r
      rw [sequential_of_some hattempt, sequential_of_some (h _ hbs ▸ hattempt)]
      by_cases hlt : stop.length < (b :: rest).length
      · rw [if_pos hlt, ih stop.length hlt (hstop _ _ _ hbs hattempt) rfl]
      · rw [if_neg hlt, hrest]

end Lockstep

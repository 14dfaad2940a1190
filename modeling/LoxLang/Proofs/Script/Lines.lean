import LoxLang.Proofs.Token.Written
import LoxLang.Script.Annotation
import Mathlib

/-!
# Two counts of lines

The annotations of a script are numbered by the lines that its text is cut into, and its tokens by
the newlines in front of them.  A text is cut at every line break, and a newline is only one of
them; a form feed or a separator of paragraphs is white space or belongs to a string or a comment.

**Annotations.** A comment that is an annotation of an error is found on the line that the comment
starts on, whatever else is on that line, and is recorded with the number of that line.

**Tokens.** A token placed directly in front of a comment disturbs no other token.  Its line is
behind the number of the annotation's line by the line breaks in front of it that are no newlines.

**Results.**
* `Text.exists_line`: the line that a place of a text is on.
* `Segment.Division.insert`: a source with a semicolon in front of a comment.
* `Script.recorded_line`: the number that an annotation is recorded with and the line of a token in
  front of it.
* `Script.pageBreak_lines`: the two differ behind a page break.
-/

namespace LoxLang

namespace Text

variable {before rest : List Char}

/-- The text up to its first line break. -/
def shown (cs : List Char) : List Char := cs.takeWhile fun c => !isLineBreak c

/-- The number of line breaks in a text that are no newlines. -/
def otherBreaks (cs : List Char) : Nat := cs.countP fun c => isLineBreak c && c != '\n'

theorem shown_append (h : before.all (fun c => !isLineBreak c) = true) :
    shown (before ++ rest) = before ++ shown rest :=
  List.takeWhile_append_of_pos (List.all_eq_true.mp h)

/-- Nothing is seen of what is behind a newline. -/
theorem shown_append_of_ends (h : rest = [] ∨ rest.head? = some '\n') :
    shown (before ++ rest) = shown before := by
  have hrest : shown rest = [] := by
    rcases h with rfl | h
    · rfl
    · obtain ⟨more, rfl⟩ := List.head?_eq_some_iff.mp h
      rfl
  induction before with
  | nil => exact hrest
  | cons c before ih =>
    cases hbreak : isLineBreak c with
    | true => simp [shown, hbreak]
    | false => simpa [shown, hbreak] using ih

theorem return_not_mem_unifyNewlines (cs : List Char) : '\r' ∉ unifyNewlines cs := by
  fun_induction unifyNewlines cs <;> simp_all [eq_comm]

theorem countP_isLineBreak (cs : List Char) :
    cs.countP isLineBreak = Scan.newlines cs + otherBreaks cs := by
  induction cs with
  | nil => rfl
  | cons c cs ih =>
    have hnewline : isLineBreak '\n' = true := by decide
    by_cases hc : c = '\n'
    · subst hc
      simp_all [otherBreaks, Scan.newlines]
      omega
    · cases hbreak : isLineBreak c <;> simp_all [otherBreaks, Scan.newlines]
      omega

theorem otherBreaks_eq_zero_iff {cs : List Char} :
    otherBreaks cs = 0 ↔ ∀ c ∈ cs, isLineBreak c = true → c = '\n' := by
  simp [otherBreaks, List.countP_eq_zero]

theorem lines_eq_shown_cons (hreturn : '\r' ∉ rest) (h : rest ≠ []) :
    ∃ later, lines rest = shown rest :: later := by
  induction rest with
  | nil => exact absurd rfl h
  | cons c rest ih =>
    rw [List.mem_cons, not_or] at hreturn
    cases hbreak : isLineBreak c with
    | true =>
      refine ⟨lines rest, ?_⟩
      rw [lines_cons_of_break hbreak (Ne.symm hreturn.1)]
      simp [shown, hbreak]
    | false =>
      rw [lines_cons_of_not_break hbreak]
      cases rest with
      | nil => exact ⟨[], by simp [lines, shown, hbreak]⟩
      | cons d rest =>
        obtain ⟨later, hlater⟩ := ih hreturn.2 (List.cons_ne_nil d rest)
        refine ⟨later, ?_⟩
        rw [hlater]
        simp [shown, hbreak]

/-- A place of a text is on a line that starts behind the line breaks in front of the place. -/
theorem exists_line (hbefore : '\r' ∉ before) (hreturn : '\r' ∉ rest) (hrest : rest ≠ []) :
    ∃ done here later, before = done ++ here ∧
      lines (before ++ rest) = lines done ++ (here ++ shown rest) :: later ∧
      (lines done).length = before.countP isLineBreak := by
  induction before with
  | nil =>
    obtain ⟨later, hlater⟩ := lines_eq_shown_cons hreturn hrest
    exact ⟨[], [], later, rfl, by simpa [lines] using hlater, by simp [lines]⟩
  | cons c before ih =>
    rw [List.mem_cons, not_or] at hbefore
    obtain ⟨done, here, later, rfl, hlines, hcount⟩ := ih hbefore.2
    cases hbreak : isLineBreak c with
    | true =>
      have hcons (cs : List Char) : lines (c :: cs) = [] :: lines cs :=
        lines_cons_of_break hbreak (Ne.symm hbefore.1)
      refine ⟨c :: done, here, later, rfl, ?_, ?_⟩
      · rw [List.cons_append, hcons, hlines, hcons, List.cons_append]
      · rw [hcons, List.length_cons, hcount, List.countP_cons_of_pos hbreak]
    | false =>
      have hcons (cs : List Char) := @lines_cons_of_not_break c cs hbreak
      have hsame : (c :: (done ++ here)).countP isLineBreak = (done ++ here).countP isLineBreak :=
        List.countP_cons_of_neg (by simp [hbreak])
      rw [hsame, ← hcount, List.cons_append, hcons, hlines]
      cases done with
      | nil => exact ⟨[], c :: here, later, rfl, rfl, rfl⟩
      | cons d done =>
        have hdone : '\r' ∉ d :: done := fun hmem => hbefore.2 (List.mem_append_left here hmem)
        obtain ⟨more, hmore⟩ := lines_eq_shown_cons hdone (List.cons_ne_nil d done)
        refine ⟨c :: d :: done, here, later, rfl, ?_, ?_⟩
        · rw [hcons, hmore]
          rfl
        · rw [hcons, hmore]
          rfl

end Text

section Insertion

variable {kind : Kind} {text front tail : List Char}

/-- A semicolon belongs to no lexeme but itself and strings. -/
theorem Lexeme.mem_semicolon (h : Lexeme kind text) (hmem : ';' ∈ text) :
    text = [';'] ∨ text.head? = some '"' := by
  have hdigits {digits : List Char} (h : IsDigits digits) : ';' ∉ digits :=
    fun hmem => absurd (h.digits ';' hmem) (by decide)
  cases h with
  | sign hkind =>
    have key : ∀ kind ∈ Kind.signs, ';' ∈ kind.spelling.toList → kind.spelling.toList = [';'] := by
      decide
    exact Or.inl (key _ hkind hmem)
  | keyword hkind =>
    have key : ∀ kind ∈ Kind.keywords, ';' ∉ kind.spelling.toList := by decide
    exact absurd hmem (key _ hkind)
  | name hname => exact absurd (hname.continues ';' hmem) (by decide)
  | string => exact Or.inr rfl
  | whole h => exact absurd hmem (hdigits h)
  | decimal hwhole hpart =>
    rcases List.mem_append.mp hmem with hmem | hmem
    · exact absurd hmem (hdigits hwhole)
    rcases List.mem_cons.mp hmem with heq | hmem
    · exact absurd heq (by decide)
    · exact absurd hmem (hdigits hpart)

/-- No lexeme but a string goes on from one character to a semicolon. -/
theorem Lexeme.prefix_of_semicolon (h : Lexeme kind text) (hfront : front ≠ [])
    (hstarts : text <+: front ++ ';' :: tail) : text <+: front ∨ text.head? = some '"' := by
  have hfronts : front <+: front ++ ';' :: tail := List.prefix_append _ _
  rcases Nat.lt_or_ge front.length text.length with hlt | hle
  · have hover : front ++ [';'] <+: text := by
      refine List.prefix_of_prefix_length_le ⟨tail, by simp⟩ hstarts ?_
      rw [List.length_append]
      exact hlt
    rcases h.mem_semicolon (hover.subset (by simp)) with rfl | hquote
    · have hpos := List.length_pos_iff.mpr hfront
      rw [List.length_singleton] at hlt
      omega
    · exact Or.inr hquote
  · exact Or.inl (List.prefix_of_prefix_length_le hstarts hfronts hle)

namespace Segment

variable {segment : Segment} {front back : List Segment} {source : List Char}

/-- What fits in front of a comment with something in between fits when a semicolon is put in front
of the comment. -/
theorem Fits.insert {middle : List Char} (htext : segment.text ≠ []) (htail : OpensComment tail)
    (h : segment.Fits (middle ++ tail)) : segment.Fits (middle ++ ';' :: tail) := by
  obtain ⟨more, rfl⟩ := htail
  cases segment with
  | lexeme kind text =>
    obtain ⟨⟨hlexeme, -, hlongest⟩, hopens⟩ := h
    have hne : text ++ middle ≠ [] := fun hnil => htext (List.append_eq_nil_iff.mp hnil).1
    rw [← List.append_assoc] at hlongest hopens
    refine ⟨⟨hlexeme, List.prefix_append _ _, fun kind' text' h' hstarts => ?_⟩, fun hopens' => ?_⟩
    · rw [← List.append_assoc] at hstarts
      rcases h'.prefix_of_semicolon hne hstarts with hwithin | hquote
      · exact hlongest kind' text' h' (hwithin.trans (List.prefix_append _ _))
      · obtain ⟨c, body, rfl, hforms⟩ := hlexeme.forms
        obtain ⟨d, body', rfl, -⟩ := h'.forms
        obtain rfl : d = '"' := Option.some.inj hquote
        rw [List.append_assoc, List.cons_append] at hstarts
        obtain ⟨rfl, -⟩ := List.cons_prefix_cons.mp hstarts
        obtain ⟨⟨body, rfl, -⟩, -⟩ := hforms.quote rfl
        exact h'.length_le_of_quote hstarts
    · rw [← List.append_assoc] at hopens'
      generalize text ++ middle = front at hne hopens hopens'
      match front, hne with
      | [c], _ => simp [OpensComment] at hopens'
      | c :: d :: rest, _ => exact hopens (by simpa [OpensComment] using hopens')
  | blank c => exact h
  | comment text =>
    obtain ⟨hopens, hnewline, hends⟩ := h
    refine ⟨hopens, hnewline, Or.inr ?_⟩
    cases middle with
    | nil => simp at hends
    | cons c middle => simpa using hends
  | stray c =>
    obtain ⟨hnone, hblank, hquote⟩ := h
    refine ⟨fun kind text hlexeme hstarts => ?_, hblank, hquote⟩
    rw [← List.cons_append] at hstarts
    rcases hlexeme.prefix_of_semicolon (List.cons_ne_nil c middle) hstarts with hwithin | hstring
    · exact hnone kind text hlexeme (hwithin.trans (List.prefix_append _ _))
    · obtain ⟨d, body, rfl, -⟩ := hlexeme.forms
      rw [List.cons_append] at hstarts
      exact hquote ((List.cons_prefix_cons.mp hstarts).1 ▸ Option.some.inj hstring)
  | unclosed text =>
    obtain ⟨-, -, -, hend⟩ := h
    simp at hend

/-- A semicolon in front of a comment is a segment, and all others stay what they are. -/
theorem Division.insert (h : Division source (front ++ comment text :: back)) :
    Division (front.flatMap Segment.text ++ ';' :: (comment text :: back).flatMap Segment.text)
      (front ++ lexeme .semicolon [';'] :: comment text :: back) := by
  induction front generalizing source with
  | nil =>
    obtain rfl : (comment text :: back).flatMap Segment.text = source := h.whole
    have hne : (lexeme .semicolon [';']).text ≠ [] := List.cons_ne_nil _ _
    exact .cons hne (fits_first ';' _) h
  | cons segment front ih =>
    rw [List.cons_append] at h
    obtain ⟨-, htext, hfits, hmore⟩ := h.tail
    have hopens : OpensComment ((comment text :: back).flatMap Segment.text) :=
      (hmore.fits front (comment text) back rfl).1.trans (List.prefix_append _ _)
    rw [List.flatMap_append] at hfits
    have hcons := Division.cons htext (hfits.insert htext hopens) (ih hmore)
    rwa [← List.append_assoc] at hcons

theorem placed_append (front more : List Segment) (before : List Char) :
    placed before (front ++ more) =
      placed before front ++ placed (before ++ front.flatMap Segment.text) more := by
  induction front generalizing before with
  | nil => rw [List.flatMap_nil, List.append_nil]; rfl
  | cons segment front ih =>
    have hnext := ih (before ++ segment.text)
    rw [List.append_assoc] at hnext
    exact congrArg (List.cons _) hnext

end Segment

namespace Scan

open Segment

/-- The tokens of segments in front of others. -/
theorem tokens_ofSegments_append (front more : List Segment) (before : List Char) :
    (ofSegments (1 + newlines before) (front ++ more)).tokens =
      (placed before front).filterMap (fun p => p.2.token? p.1) ++
        (ofSegments (1 + newlines (before ++ front.flatMap Segment.text)) more).tokens := by
  induction front generalizing before with
  | nil => rw [List.flatMap_nil, List.append_nil]; rfl
  | cons segment front ih =>
    have hline := line_append 1 before segment.text
    have hnext := ih (before ++ segment.text)
    rw [List.append_assoc] at hnext
    cases segment with
    | lexeme kind text => simp only [List.cons_append, ofSegments, hline, hnext]; rfl
    | _ => simp only [List.cons_append, ofSegments, hline, hnext]; rfl

end Scan

end Insertion

namespace Script

section Defs

/-- Whether a comment is an annotation of an error, and what it says the error is. -/
inductive Annotates : List Char → List Char → Prop
  | static {text : List Char} :
    Annotates ("// Error".toList ++ text) ("Error".toList ++ Text.shown text)
  | runtime {c : Char} {text : List Char} :
    Text.isLineBreak c = false →
    Annotates ("// expect runtime error: ".toList ++ c :: text) (c :: Text.shown text)

/-- Whether what is said behind a text is recorded with the number of a line: the line starts in the
text, goes on behind it and has that number, and what is recorded ends with what is said. -/
structure Recorded (expected : Expectations) (before rest said : List Char) (number : Nat) :
    Prop where
  line : ∃ done here later, before = done ++ here ∧
    Text.lines (before ++ rest) = Text.lines done ++ (here ++ Text.shown rest) :: later ∧
    number = (Text.lines done).length + 1
  diagnostic : ∃ found, said <:+ found ∧ atLine (lineNumber number) found ∈ expected.diagnostics

/-- The tokens of the segments that a source starts with. -/
def tokensOf (front : List Segment) : List Token :=
  (Segment.placed [] front).filterMap fun p => p.2.token? p.1

/-- Whether tokens at the end of the front of a source are on a line: one that is put there, while
all others stay what they are, and one that is there. -/
structure EndsOn (front : List Segment) (rest : List Char) (line : Nat) : Prop where
  put : ∃ later,
    (Scan.ofSource (front.flatMap Segment.text ++ rest)).tokens = tokensOf front ++ later ∧
    (Scan.ofSource (front.flatMap Segment.text ++ ';' :: rest)).tokens =
      tokensOf front ++ Token.bare .semicolon ";" line :: later
  there : ∀ kind lexeme, front.getLast? = some (.lexeme kind lexeme) →
    (tokensOf front).getLast? =
      some ⟨kind, String.ofList lexeme, Scan.literalOf kind lexeme, line⟩

end Defs

section Matching

variable {opening cs rest said : List Char}

theorem behind_eq_some_iff : behind opening cs = some rest ↔ cs = opening ++ rest := by
  induction opening generalizing cs with
  | nil => simp [behind, eq_comm]
  | cons o opening ih =>
    cases cs with
    | nil => simp [behind]
    | cons c cs => by_cases h : o = c <;> simp [behind, h, ih, eq_comm]

/-- What a form finds is what is left behind an opening. -/
def Drops (form : List Char → Option (List Char)) (opening : List Char) : Prop :=
  ∀ cs found, form cs = some found → found = cs.drop opening.length

theorem errorForm_drops : Drops errorForm "// ".toList := by
  intro cs found h
  simp only [errorForm, Option.bind_eq_some_iff, Option.map_eq_some_iff, behind_eq_some_iff] at h
  obtain ⟨rest, rfl, -, -, rfl⟩ := h
  exact List.drop_left.symm

theorem runtimeErrorForm_drops : Drops runtimeErrorForm "// expect runtime error: ".toList := by
  intro cs found h
  simp only [runtimeErrorForm, Option.bind_eq_some_iff, behind_eq_some_iff] at h
  obtain ⟨rest, rfl, hrest⟩ := h
  split at hrest
  · cases hrest
  · cases hrest
    exact List.drop_left.symm

/-- What a form matches at the end of a line ends what the form finds on the line. -/
theorem search_append {form : List Char → Option (List Char)} 
    (hform : Drops form opening) (h : form cs = some said) (here : List Char) :
    ∃ found, search form (here ++ cs) = some found ∧ said <:+ found := by
  induction here with
  | nil =>
    refine ⟨said, ?_, List.suffix_refl said⟩
    cases cs with
    | nil => exact h
    | cons c cs => simp [search, h]
  | cons c here ih =>
    rw [List.cons_append, search]
    cases hfirst : form (c :: (here ++ cs)) with
    | none => exact ih
    | some found =>
      refine ⟨found, rfl, ?_⟩
      rw [hform _ _ h, hform _ _ hfirst, ← List.cons_append, List.drop_append]
      have hdrop := List.drop_suffix_drop_left cs (Nat.sub_le opening.length (c :: here).length)
      exact hdrop.trans (List.suffix_append _ _)

/-- A form matches what is seen of an annotation. -/
theorem Annotates.form (h : Annotates rest said) :
    errorForm (Text.shown rest) = some said ∨ runtimeErrorForm (Text.shown rest) = some said := by
  cases h with
  | @static text =>
    left
    rw [Text.shown_append (by decide)]
    have hopening : behind "// ".toList ("// Error".toList ++ Text.shown text) =
        some ("Error".toList ++ Text.shown text) := behind_eq_some_iff.mpr rfl
    have hword : behind "Error".toList ("Error".toList ++ Text.shown text) =
        some (Text.shown text) := behind_eq_some_iff.mpr rfl
    rw [errorForm, hopening, Option.bind_some, hword, Option.map_some]
  | @runtime c text hc =>
    right
    have hshown : Text.shown (c :: text) = c :: Text.shown text := by simp [Text.shown, hc]
    rw [Text.shown_append (by decide), hshown, runtimeErrorForm, behind_eq_some_iff.mpr rfl]
    rfl

theorem Annotates.ofLine (h : Annotates rest said) (number : Nat) (here : List Char) :
    ∃ found, said <:+ found ∧
      (atLine (lineNumber number) found ∈
          (Annotations.ofLine number (here ++ Text.shown rest)).staticErrors ∨
        atLine (lineNumber number) found ∈
          (Annotations.ofLine number (here ++ Text.shown rest)).runtimeErrors) := by
  rcases h.form with hform | hform
  · obtain ⟨found, hfound, hsuffix⟩ := search_append errorForm_drops hform here
    exact ⟨found, hsuffix, Or.inl (by simp [Annotations.ofLine, hfound])⟩
  · obtain ⟨found, hfound, hsuffix⟩ := search_append runtimeErrorForm_drops hform here
    exact ⟨found, hsuffix, Or.inr (by simp [Annotations.ofLine, hfound])⟩

end Matching

section Recording

variable {number : Nat} {line : List Char} {entry : String}

theorem mem_ofLines {entries : Annotations → List String}
    (hentries : entries = Annotations.staticErrors ∨ entries = Annotations.runtimeErrors)
    (later : List (List Char)) (lines : List (List Char))
    (h : entry ∈ entries (Annotations.ofLine (number + lines.length) line)) :
    entry ∈ entries (Annotations.ofLines number (lines ++ line :: later)) := by
  induction lines generalizing number with
  | nil => rcases hentries with rfl | rfl <;> exact List.mem_append_left _ h
  | cons first lines ih =>
    rw [List.length_cons, Nat.add_comm lines.length, ← Nat.add_assoc] at h
    rcases hentries with rfl | rfl <;> exact List.mem_append_right _ (ih h)

theorem mem_expectations {a : Annotations} {expected : Expectations}
    (h : a.expectations = .ok expected) (hentry : entry ∈ a.staticErrors ∨ entry ∈ a.runtimeErrors) :
    entry ∈ expected.diagnostics := by
  unfold Annotations.expectations at h
  split at h
  · cases h
  · obtain rfl := Except.ok.inj h
    have hstatic : a.staticErrors = [] := ‹_›
    exact hentry.resolve_left (by simp [hstatic])
  · obtain rfl := Except.ok.inj h
    have hruntime : a.runtimeErrors = [] := ‹_›
    exact hentry.resolve_right (by simp [hruntime])

end Recording

section Lines

open Segment

variable {contents text said : List Char} {front back : List Segment} {expected : Expectations}

theorem endsOn_of_division {source : List Char}
    (h : Division source (front ++ comment text :: back)) :
    EndsOn front (text ++ back.flatMap Segment.text)
      (1 + Scan.newlines (front.flatMap Segment.text)) := by
  have hline : ((1 + Scan.newlines (front.flatMap Segment.text) : Nat) : Int) =
      1 + Scan.newlines (front.flatMap Segment.text) := by simp
  have hwhole : front.flatMap Segment.text ++ (text ++ back.flatMap Segment.text) = source := by
    rw [← h.whole, List.flatMap_append]
    rfl
  have hfront (more : List Segment) := Scan.tokens_ofSegments_append front more []
  refine ⟨⟨(Scan.ofSegments (1 + Scan.newlines (front.flatMap Segment.text))
    (comment text :: back)).tokens, ?_, ?_⟩, fun kind lexeme hlast => ?_⟩
  · rw [hwhole, Scan.ofSource, ← h.eq_split]
    exact hfront (comment text :: back)
  · have hsplit := h.insert.eq_split
    rw [List.flatMap_cons] at hsplit
    have hput : Scan.ofSource (front.flatMap Segment.text ++
        ';' :: (text ++ back.flatMap Segment.text)) =
          Scan.ofSegments 1 (front ++ lexeme .semicolon [';'] :: comment text :: back) :=
      congrArg (Scan.ofSegments 1) hsplit.symm
    -- The semicolon has no newline inside, so what is behind it stays on its lines.
    have hnone : (1 + Scan.newlines (front.flatMap Segment.text) : Int) + Scan.newlines [';'] =
        1 + Scan.newlines (front.flatMap Segment.text) := Int.add_zero _
    have htoken (segments : List Segment) :
        (Scan.ofSegments (1 + Scan.newlines (front.flatMap Segment.text))
          (lexeme .semicolon [';'] :: segments)).tokens =
          Token.bare .semicolon ";" (1 + Scan.newlines (front.flatMap Segment.text)) ::
            (Scan.ofSegments (1 + Scan.newlines (front.flatMap Segment.text)) segments).tokens := by
      simp only [Scan.ofSegments, Segment.text, hnone]
      rfl
    rw [hput, hline, ← htoken]
    exact hfront (lexeme .semicolon [';'] :: comment text :: back)
  · obtain ⟨front, rfl⟩ := List.getLast?_eq_some_iff.mp hlast
    rw [tokensOf, placed_append, List.filterMap_append, hline]
    simp [placed, token?, Segment.text]

/-- The number of the line of an annotation and the line of a token directly in front of it.  They
are the same if newlines are the only line breaks in front of the annotation. -/
theorem recorded_line
    (hexpected : Expectations.ofSource (Text.unifyNewlines contents) = .ok expected)
    (hsplit : split (Text.unifyNewlines contents) = front ++ comment text :: back)
    (hannotates : Annotates text said) :
    let before := front.flatMap Segment.text
    let rest := text ++ back.flatMap Segment.text
    ∃ number line : Nat, Recorded expected before rest said number ∧ EndsOn front rest line ∧
      number = line + Text.otherBreaks before ∧
      (number = line ↔ ∀ c ∈ before, Text.isLineBreak c = true → c = '\n') := by
  intro before rest
  have hdivision := hsplit ▸ division_split (Text.unifyNewlines contents)
  have hreturn := Text.return_not_mem_unifyNewlines contents
  obtain ⟨hopens, -, hends⟩ := hdivision.fits front (comment text) back rfl
  have hsource : Text.unifyNewlines contents = before ++ rest := by
    rw [← hdivision.whole, List.flatMap_append]
    rfl
  rw [hsource] at hexpected hreturn
  rw [List.mem_append, not_or] at hreturn
  have hrest : rest ≠ [] := by
    have hne := hdivision.nonempty (comment text) (by simp)
    exact fun hnil => hne (List.append_eq_nil_iff.mp hnil).1
  obtain ⟨done, here, later, hbefore, hlines, hcount⟩ :=
    Text.exists_line hreturn.1 hreturn.2 hrest
  have hshown : Text.shown rest = Text.shown text := Text.shown_append_of_ends hends
  have hnumber : (Text.lines done).length + 1 =
      (1 + Scan.newlines before) + Text.otherBreaks before := by
    rw [hcount, Text.countP_isLineBreak]
    omega
  refine ⟨(Text.lines done).length + 1, 1 + Scan.newlines before, ?_, ?_, hnumber, ?_⟩
  · obtain ⟨found, hsuffix, hfound⟩ := hannotates.ofLine (1 + (Text.lines done).length) here
    refine ⟨⟨done, here, later, hbefore, hlines, rfl⟩, found, hsuffix, ?_⟩
    rw [Nat.add_comm]
    refine mem_expectations hexpected ?_
    rw [hlines, hshown]
    exact hfound.imp (mem_ofLines (Or.inl rfl) later (Text.lines done))
      (mem_ofLines (Or.inr rfl) later (Text.lines done))
  · exact endsOn_of_division hdivision
  · rw [← Text.otherBreaks_eq_zero_iff, hnumber]
    omega

section Cases

/-- What is said of a statement that goes wrong. -/
def pageBreakSaid : List Char := "Operand must be a number.".toList

/-- The annotation that says it. -/
def pageBreakText : List Char := "// expect runtime error: ".toList ++ pageBreakSaid

/-- What is in front of the annotation: a page break, the statement and a blank. -/
def pageBreakFront : List Segment :=
  [.blank '\x0c', .lexeme .minus ['-'], .lexeme .nilWord ['n', 'i', 'l'],
    .lexeme .semicolon [';'], .blank ' ']

/-- A script of one line by its newlines, and of two by its line breaks. -/
def pageBreak : List Char := "\x0c-nil; ".toList ++ pageBreakText

/-- What the script should report. -/
def pageBreakExpected : Expectations := ⟨[], ["[line 2] Operand must be a number."]⟩

theorem pageBreak_recorded :
    ∃ number line : Nat,
      Recorded pageBreakExpected "\x0c-nil; ".toList (pageBreakText ++ []) pageBreakSaid number ∧
      EndsOn pageBreakFront (pageBreakText ++ []) line ∧ number = line + 1 := by
  have hexpected : Expectations.ofSource (Text.unifyNewlines pageBreak) = .ok pageBreakExpected := by
    cbv
  have hbreak : Text.isLineBreak 'O' = false := rfl
  have hsplit : split (Text.unifyNewlines pageBreak) =
      pageBreakFront ++ comment pageBreakText :: [] := by cbv
  obtain ⟨number, line, hrecorded, hends, hnumber, -⟩ :=
    recorded_line hexpected hsplit (.runtime hbreak)
  exact ⟨number, line, hrecorded, hends, hnumber⟩

theorem pageBreak_lines :
    Expectations.ofSource (Text.unifyNewlines pageBreak) = .ok pageBreakExpected ∧
      split (Text.unifyNewlines pageBreak) = pageBreakFront ++ [comment pageBreakText] ∧
      Annotates pageBreakText pageBreakSaid ∧
      (Scan.ofSource ("\x0c-nil; ".toList ++ ';' :: pageBreakText)).tokens.map Token.line =
        [1, 1, 1, 1, 1] :=
  ⟨by cbv, by cbv, .runtime (show Text.isLineBreak 'O' = false from rfl), by cbv⟩

end Cases

end Lines

end Script
end LoxLang

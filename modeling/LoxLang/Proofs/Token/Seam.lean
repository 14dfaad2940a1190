import LoxLang.Proofs.Relabelling.Trees
import LoxLang.Proofs.Token.Names
import LoxLang.Text.Lines

/-!
# Scanning two sources as one

A source without lexical errors, a newline and another source are divided into the segments of the
first source, the newline and the segments of the second: at the seam no lexeme goes on, a comment
ends, and no string is open.  So the tokens are those of both sources, the later ones further down.

**Returns.** A carriage return at the end of the first source becomes one newline with the newline
behind it.  There it was white space or belonged to a comment, and its loss changes no token.

**Results.**
* `split_append_newline`: the segments of both sources.
* `Scan.ofSource_joinReturns`: the tokens of both sources.
-/

namespace LoxLang

namespace Segment

/-- Whether nothing is wrong with a segment. -/
def Quiet : Segment → Prop
  | stray _ | unclosed _ => False
  | _ => True

section First

variable {s : Char} {tail : List Char}

/-- A run of characters ends at one that is not of its kind, or it has ended before. -/
theorem span_append (p : Char → Bool) (s : Char) (tail : List Char) {cs : List Char}
    (h : p s = false ∨ cs.dropWhile p ≠ []) :
    (cs ++ s :: tail).takeWhile p = cs.takeWhile p ∧
      (cs ++ s :: tail).dropWhile p = cs.dropWhile p ++ s :: tail := by
  induction cs with
  | nil =>
    rcases h with h | h
    · simp [h]
    · exact absurd rfl h
  | cons c rest ih =>
    cases hc : p c with
    | false => simp [hc]
    | true =>
      have hrest : p s = false ∨ rest.dropWhile p ≠ [] := by simpa [hc] using h
      simp [hc, ih hrest]

/-- A run of characters that lasts to the end goes on with one of its kind. -/
theorem span_concat {p : Char → Bool} {cs : List Char} (h : cs.dropWhile p = []) (hs : p s = true) :
    (cs ++ [s]).takeWhile p = cs.takeWhile p ++ [s] ∧ (cs ++ [s]).dropWhile p = [] := by
  induction cs with
  | nil => simp [hs]
  | cons c rest ih =>
    cases hc : p c with
    | false => simp [hc] at h
    | true => simp [hc, ih (by simpa [hc] using h)]

theorem firstOperator_append (hs : s ≠ '=') (c : Char) (alone joined : Kind) (rest : List Char) :
    firstOperator c alone joined (rest ++ s :: tail) =
      ((firstOperator c alone joined rest).1,
        (firstOperator c alone joined rest).2 ++ s :: tail) := by
  cases rest with
  | nil => simp [firstOperator, hs]
  | cons d rest =>
    by_cases hd : d = '='
    · subst hd
      rfl
    · simp [firstOperator, hd]

theorem firstString_append {rest : List Char} (h : (firstString rest).1.Quiet) :
    firstString (rest ++ s :: tail) =
      ((firstString rest).1, (firstString rest).2 ++ s :: tail) := by
  unfold firstString at h ⊢
  cases hclose : rest.dropWhile (· ≠ '"') with
  | nil =>
    rw [hclose] at h
    exact h.elim
  | cons close after =>
    have hends : rest.dropWhile (· ≠ '"') ≠ [] := by
      rw [hclose]
      exact List.cons_ne_nil close after
    obtain ⟨htake, hdrop⟩ := span_append (· ≠ '"') s tail (Or.inr hends)
    rw [htake, hdrop, hclose]
    rfl

/-- An open string takes the carriage return behind it. -/
theorem firstString_append_return {rest : List Char} (h : ¬ (firstString rest).1.Quiet) :
    firstString rest = (unclosed ('"' :: rest), []) ∧
      firstString (rest ++ ['\r']) = (unclosed ('"' :: rest ++ ['\r']), []) := by
  cases hclose : rest.dropWhile (· ≠ '"') with
  | nil =>
    obtain ⟨-, hdrop⟩ := span_concat (s := '\r') hclose rfl
    simp only [firstString, hclose, hdrop]
    simp
  | cons close after =>
    simp only [firstString, hclose] at h
    exact absurd trivial h

theorem firstSlash_append (hs : s ≠ '/') {rest : List Char}
    (h : s = '\n' ∨ ∀ text, firstSlash rest ≠ (comment text, [])) :
    firstSlash (rest ++ s :: tail) =
      ((firstSlash rest).1, (firstSlash rest).2 ++ s :: tail) := by
  cases rest with
  | nil => simp [firstSlash, hs]
  | cons d rest =>
    by_cases hd : d = '/'
    · subst hd
      have hends : (decide (s ≠ '\n')) = false ∨ rest.dropWhile (· ≠ '\n') ≠ [] := by
        rcases h with rfl | h
        · exact Or.inl rfl
        · exact Or.inr fun hend => h _ (Prod.ext rfl hend)
      obtain ⟨htake, hdrop⟩ := span_append (· ≠ '\n') s tail hends
      simp only [firstSlash, List.cons_append, htake, hdrop]
    · simp [firstSlash, hd]

/-- A comment at the end takes the carriage return behind it. -/
theorem firstSlash_append_return {rest text : List Char}
    (h : firstSlash rest = (comment text, [])) :
    firstSlash (rest ++ ['\r']) = (comment (text ++ ['\r']), []) := by
  unfold firstSlash at h
  split at h
  · rename_i more
    obtain ⟨htext, hends⟩ := Prod.ext_iff.mp h
    cases htext
    obtain ⟨htake, hdrop⟩ := span_concat (s := '\r') hends rfl
    simp only [firstSlash, List.cons_append, htake, hdrop]
  · cases h

theorem firstNumber_append (hdigit : s.isDigit = false) (hpoint : s ≠ '.') (c : Char)
    (rest : List Char) :
    firstNumber c (rest ++ s :: tail) =
      ((firstNumber c rest).1, (firstNumber c rest).2 ++ s :: tail) := by
  have hspan (cs : List Char) := @span_append Char.isDigit s tail cs (Or.inl hdigit)
  obtain ⟨htake, hdrop⟩ := hspan rest
  unfold firstNumber
  rw [htake, hdrop]
  rcases rest.dropWhile Char.isDigit with _ | ⟨d, _ | ⟨e, after⟩⟩
  · simp [hpoint]
  · by_cases hd : d = '.'
    · subst hd
      simp [hdigit]
    · simp [hd]
  · by_cases hd : d = '.'
    · subst hd
      obtain ⟨htake, hdrop⟩ := hspan after
      cases he : e.isDigit with
      | false => simp [he]
      | true => simp [he, htake, hdrop]
    · simp [hd]

theorem firstWord_append (hs : continuesName s = false) (c : Char) (rest : List Char) :
    firstWord c (rest ++ s :: tail) =
      ((firstWord c rest).1, (firstWord c rest).2 ++ s :: tail) := by
  obtain ⟨htake, hdrop⟩ := @span_append continuesName s tail rest (Or.inl hs)
  simp [firstWord, htake, hdrop]

/-- Neither a line feed nor a carriage return goes on with a segment in front of it that is no
string and no comment. -/
theorem first_append (hs : s = '\n' ∨ s = '\r') {c : Char} (hslash : c ≠ '/') (hquote : c ≠ '"')
    (rest : List Char) :
    first c (rest ++ s :: tail) = ((first c rest).1, (first c rest).2 ++ s :: tail) := by
  have hequal : s ≠ '=' := by rcases hs with rfl | rfl <;> decide
  have hpoint : s ≠ '.' := by rcases hs with rfl | rfl <;> decide
  have hdigit : s.isDigit = false := by rcases hs with rfl | rfl <;> decide
  have hname : continuesName s = false := by rcases hs with rfl | rfl <;> decide
  unfold first
  split
  · rfl
  · exact firstOperator_append hequal ..
  · simp only [hslash, hquote, if_false]
    split
    · rfl
    · split
      · exact firstNumber_append hdigit hpoint ..
      · split
        · exact firstWord_append hname ..
        · rfl

theorem first_append_newline {c : Char} {rest : List Char} (h : (first c rest).1.Quiet) :
    first c (rest ++ '\n' :: tail) = ((first c rest).1, (first c rest).2 ++ '\n' :: tail) := by
  by_cases hslash : c = '/'
  · subst hslash
    exact firstSlash_append (by decide) (Or.inl rfl)
  · by_cases hquote : c = '"'
    · subst hquote
      exact firstString_append h
    · exact first_append (Or.inl rfl) hslash hquote rest

/-- A carriage return behind the text is left over, or a comment or an open string takes it. -/
theorem first_append_return (c : Char) (rest : List Char) :
    first c (rest ++ ['\r']) = ((first c rest).1, (first c rest).2 ++ ['\r']) ∨
      (∃ text, first c rest = (comment text, []) ∧
        first c (rest ++ ['\r']) = (comment (text ++ ['\r']), [])) ∨
      ∃ text, first c rest = (unclosed text, []) ∧
        first c (rest ++ ['\r']) = (unclosed (text ++ ['\r']), []) := by
  by_cases hslash : c = '/'
  · subst hslash
    by_cases h : ∃ text, firstSlash rest = (comment text, [])
    · obtain ⟨text, htext⟩ := h
      exact Or.inr (Or.inl ⟨text, htext, firstSlash_append_return htext⟩)
    · exact Or.inl (firstSlash_append (by decide) (Or.inr fun text htext => h ⟨text, htext⟩))
  · by_cases hquote : c = '"'
    · subst hquote
      by_cases h : (firstString rest).1.Quiet
      · exact Or.inl (firstString_append h)
      · obtain ⟨hends, hends'⟩ := firstString_append_return h
        exact Or.inr (Or.inr ⟨_, hends, hends'⟩)
    · exact Or.inl (first_append (Or.inr rfl) hslash hquote rest)

end First

theorem split_cons (c : Char) (rest : List Char) :
    split (c :: rest) = (first c rest).1 :: split (first c rest).2 := by
  rw [split]

theorem split_append_newline {a : List Char} (h : ∀ segment ∈ split a, segment.Quiet)
    (b : List Char) : split (a ++ '\n' :: b) = split a ++ .blank '\n' :: split b := by
  fun_induction split a with
  | case1 =>
    rw [List.nil_append, List.nil_append, split_cons]
    rfl
  | case2 c rest ih =>
    obtain ⟨hfirst, hrest⟩ := List.forall_mem_cons.mp h
    rw [List.cons_append, split_cons, first_append_newline hfirst, ih hrest]
    rfl

end Segment

namespace Scan

theorem ofSegments_quiet {line : Int} {segments : List Segment}
    (h : (ofSegments line segments).diagnostics = []) : ∀ segment ∈ segments, segment.Quiet := by
  induction segments generalizing line with
  | nil => simp
  | cons segment more ih =>
    cases segment with
    | stray c => simp [ofSegments] at h
    | unclosed text => simp [ofSegments] at h
    | lexeme kind text => exact List.forall_mem_cons.mpr ⟨trivial, ih h⟩
    | blank c => exact List.forall_mem_cons.mpr ⟨trivial, ih h⟩
    | comment text => exact List.forall_mem_cons.mpr ⟨trivial, ih h⟩

/-- The tokens of further segments stand where the end marker stood. -/
theorem ofSegments_append (line : Int) (segments more : List Segment) :
    ∃ ts marker next, (ofSegments line segments).tokens = ts ++ [marker] ∧
      (ofSegments line (segments ++ more)).tokens = ts ++ (ofSegments next more).tokens ∧
      (ofSegments line (segments ++ more)).diagnostics =
        (ofSegments line segments).diagnostics ++ (ofSegments next more).diagnostics := by
  induction segments generalizing line with
  | nil => exact ⟨[], _, line, rfl, rfl, rfl⟩
  | cons segment segments ih =>
    obtain ⟨ts, marker, next, hts, htokens, hdiagnostics⟩ := ih (line + newlines segment.text)
    cases segment with
    | lexeme kind text =>
      exact ⟨_ :: ts, marker, next, congrArg (List.cons _) hts, congrArg (List.cons _) htokens,
        hdiagnostics⟩
    | blank c => exact ⟨ts, marker, next, hts, htokens, hdiagnostics⟩
    | comment text => exact ⟨ts, marker, next, hts, htokens, hdiagnostics⟩
    | stray c => exact ⟨ts, marker, next, hts, htokens, congrArg (List.cons _) hdiagnostics⟩
    | unclosed text => exact ⟨ts, marker, next, hts, htokens, congrArg (List.cons _) hdiagnostics⟩

/-- Segments on other lines. -/
theorem ofSegments_shift (line lines : Int) (segments : List Segment) :
    (ofSegments (line + lines) segments).tokens =
        (ofSegments line segments).tokens.map (Token.relabel (· + lines)) ∧
      ((ofSegments (line + lines) segments).diagnostics = [] ↔
        (ofSegments line segments).diagnostics = []) := by
  induction segments generalizing line with
  | nil => simp [ofSegments, Token.relabel, Token.bare]
  | cons segment more ih =>
    have hnext : line + lines + newlines segment.text = line + newlines segment.text + lines := by
      omega
    obtain ⟨htokens, hdiagnostics⟩ := ih (line + newlines segment.text)
    cases segment <;>
      simp only [Segment.text] at hnext htokens hdiagnostics <;>
      simp [ofSegments, Segment.text, hnext, htokens, hdiagnostics, Token.relabel]

/-- A carriage return at the end of a text changes nothing. -/
theorem ofSegments_append_return (line : Int) (a : List Char) :
    ofSegments line (Segment.split (a ++ ['\r'])) = ofSegments line (Segment.split a) := by
  fun_induction Segment.split a generalizing line with
  | case1 =>
    have hsplit : Segment.split ['\r'] = .blank '\r' :: Segment.split [] := by
      rw [Segment.split_cons]
      rfl
    simp [hsplit, ofSegments, Segment.split, newlines, Segment.text]
  | case2 c rest ih =>
    rw [List.cons_append, Segment.split_cons]
    rcases Segment.first_append_return c rest with h | ⟨text, h, h'⟩ | ⟨text, h, h'⟩
    · simp only [h, ofSegments, ih]
    · simp [h, h', ofSegments, Segment.split, newlines, Segment.text]
    · simp [h, h', ofSegments, Segment.split, newlines, Segment.text]

/-- The tokens of two texts with a line feed in between. -/
theorem ofSource_append_newline {a : List Char} (ha : (ofSource a).diagnostics = [])
    (b : List Char) :
    ∃ ts marker lines, (ofSource a).tokens = ts ++ [marker] ∧
      (ofSource (a ++ '\n' :: b)).tokens =
        ts ++ (ofSource b).tokens.map (Token.relabel (· + lines)) ∧
      ((ofSource (a ++ '\n' :: b)).diagnostics = [] ↔ (ofSource b).diagnostics = []) := by
  have hsplit := Segment.split_append_newline (ofSegments_quiet ha) b
  obtain ⟨ts, marker, next, hts, htokens, hdiagnostics⟩ :=
    ofSegments_append 1 (Segment.split a) (.blank '\n' :: Segment.split b)
  obtain ⟨hmoved, hquiet⟩ :=
    ofSegments_shift 1 (next + newlines ['\n'] - 1) (Segment.split b)
  have hnext : 1 + (next + newlines ['\n'] - 1) = next + newlines ['\n'] := by omega
  rw [hnext] at hmoved hquiet
  refine ⟨ts, marker, next + newlines ['\n'] - 1, hts, ?_, ?_⟩
  · rw [ofSource, hsplit, htokens]
    exact congrArg (ts ++ ·) hmoved
  · have hnone : (ofSegments 1 (Segment.split a)).diagnostics = [] := ha
    rw [ofSource, hsplit, hdiagnostics, hnone, List.nil_append]
    exact hquiet

/-- Joining returns and line feeds in both texts: a return at the end of the first is lost. -/
theorem joinReturns_append_newline (a b : List Char) :
    ∃ front, Text.joinReturns (a ++ '\n' :: b) = front ++ '\n' :: Text.joinReturns b ∧
      (Text.joinReturns a = front ∨ Text.joinReturns a = front ++ ['\r']) := by
  fun_induction Text.joinReturns a with
  | case1 => exact ⟨[], by simp [Text.joinReturns], Or.inl rfl⟩
  | case2 rest ih =>
    obtain ⟨front, hjoined, hfront⟩ := ih
    exact ⟨'\n' :: front, by simp [Text.joinReturns, hjoined], by simpa using hfront⟩
  | case3 c rest hpair ih =>
    by_cases hlast : c = '\r' ∧ rest = []
    · obtain ⟨rfl, rfl⟩ := hlast
      exact ⟨[], by simp [Text.joinReturns], by simp [Text.joinReturns]⟩
    · obtain ⟨front, hjoined, hfront⟩ := ih
      have hcons : Text.joinReturns (c :: rest ++ '\n' :: b) =
          c :: Text.joinReturns (rest ++ '\n' :: b) := by
        rw [List.cons_append, Text.joinReturns]
        rintro more rfl hmore
        cases rest with
        | nil => exact hlast ⟨rfl, rfl⟩
        | cons d rest =>
          obtain ⟨rfl, -⟩ := List.cons.inj hmore
          exact hpair rest rfl rfl
      exact ⟨c :: front, by rw [hcons, hjoined, List.cons_append], by simpa using hfront⟩

/-- The tokens of two sources with a line feed in between. -/
theorem ofSource_joinReturns {a : List Char}
    (ha : (ofSource (Text.joinReturns a)).diagnostics = []) (b : List Char) :
    ∃ ts marker lines, (ofSource (Text.joinReturns a)).tokens = ts ++ [marker] ∧
      (ofSource (Text.joinReturns (a ++ '\n' :: b))).tokens =
        ts ++ (ofSource (Text.joinReturns b)).tokens.map (Token.relabel (· + lines)) ∧
      ((ofSource (Text.joinReturns (a ++ '\n' :: b))).diagnostics = [] ↔
        (ofSource (Text.joinReturns b)).diagnostics = []) := by
  obtain ⟨front, hjoined, hfront⟩ := joinReturns_append_newline a b
  have heq : ofSource (Text.joinReturns a) = ofSource front := by
    rcases hfront with h | h
    · rw [h]
    · rw [h]
      exact ofSegments_append_return 1 front
  rw [heq] at ha ⊢
  rw [hjoined]
  exact ofSource_append_newline ha _

end Scan
end LoxLang

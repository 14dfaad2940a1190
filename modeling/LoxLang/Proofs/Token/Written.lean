import LoxLang.Proofs.Token.Division
import Mathlib

/-!
# Written lexemes

Lexemes can be written down with separators between them, and scanned again.  A separator starts
with a white-space character, behind which any white space and any comments with their newlines
may follow.

**Statement.** What is scanned are the lexemes that were written, one token for each, and nothing is
reported.  A lexeme ends in front of white space: no longer one starts where it does, since white
space belongs to no lexeme but a string, and a string ends at its second quote.

**Results.**
* `hasForm_iff`: the forms of lexemes, without regard to their kinds.
* `Lexeme.fits_of_blank`: a lexeme fits in front of white space.
* `Scan.ofSource_written`: written lexemes are scanned, and scanned lexemes can be written.
-/

namespace LoxLang

section Defs

/-- Whether a text is a letter or an underscore, with letters, digits and underscores behind it. -/
def IsWord (cs : List Char) : Prop :=
  ∃ c rest, cs = c :: rest ∧ startsName c = true ∧ ∀ d ∈ rest, continuesName d = true

/-- Whether a text has the form of a lexeme. -/
inductive HasForm : List Char → Prop
  | sign {kind : Kind} : kind ∈ Kind.signs → HasForm kind.spelling.toList
  | word {cs : List Char} : IsWord cs → HasForm cs
  | number {cs : List Char} : IsNumber cs → HasForm cs
  | string {body : List Char} : '"' ∉ body → HasForm ('"' :: body ++ ['"'])

/-- Whether a text is white space and comments, each with the newline it ends at. -/
inductive IsTrivia : List Char → Prop
  | nil : IsTrivia []
  | blank {c : Char} {rest : List Char} :
    Text.isBlank c = true → IsTrivia rest → IsTrivia (c :: rest)
  | comment {body rest : List Char} :
    '\n' ∉ body → IsTrivia rest → IsTrivia ('/' :: '/' :: body ++ '\n' :: rest)

/-- Whether a text may stand between two lexemes. -/
def IsSeparator (cs : List Char) : Prop :=
  ∃ c rest, cs = c :: rest ∧ Text.isBlank c = true ∧ IsTrivia rest

/-- Whether lexemes are written with separators between them, and behind the last one if need be. -/
inductive Written : List (List Char) → List Char → Prop
  | nil : Written [] []
  | last {text after : List Char} :
    HasForm text → (after = [] ∨ IsSeparator after) → Written [text] (text ++ after)
  | cons {text separator next rest : List Char} {more : List (List Char)} :
    HasForm text → IsSeparator separator → Written (next :: more) rest →
    Written (text :: next :: more) (text ++ separator ++ rest)

/-- Whether a token is what a lexeme denotes. -/
structure Token.Denotes (text : List Char) (t : Token) : Prop where
  lexeme : t.lexeme = String.ofList text
  kind : Lexeme t.kind text
  /-- Only what is spelled like a word of the language is one. -/
  keyword : t.kind ∈ Kind.keywords ↔ ∃ kind ∈ Kind.keywords, kind.spelling.toList = text
  literal : t.literal = Scan.literalOf t.kind text
  /-- The value of a string is what stands between its quotes. -/
  string : ∀ body, text = '"' :: body ++ ['"'] → t.literal = some (.text (String.ofList body))

/-- A token but for its line. -/
def Token.content (t : Token) : Kind × String × Option Literal := (t.kind, t.lexeme, t.literal)

end Defs

section Forms

variable {kind : Kind} {text : List Char}

theorem IsWord.exists_lexeme (h : IsWord text) : ∃ kind, Lexeme kind text := by
  obtain ⟨c, rest, rfl, hc, hrest⟩ := h
  rcases Kind.ofWord_spelled (c :: rest) with hname | ⟨hkeyword, hspelling⟩
  · refine ⟨.identifier, .name ⟨⟨c, rest, rfl, hc⟩, fun d hd => ?_, hname⟩⟩
    rcases List.mem_cons.mp hd with rfl | hd
    · exact (startsNameOnly hc).continues
    · exact hrest d hd
  · have hlexeme := Lexeme.keyword hkeyword
    rw [hspelling] at hlexeme
    exact ⟨_, hlexeme⟩

/-- A lexeme is of one kind or another. -/
theorem hasForm_iff : HasForm text ↔ ∃ kind, Lexeme kind text := by
  constructor
  · intro h
    cases h with
    | sign hkind => exact ⟨_, .sign hkind⟩
    | word hword => exact hword.exists_lexeme
    | number hnumber =>
      rcases hnumber with hdigits | ⟨whole, part, rfl, hwhole, hpart⟩
      · exact ⟨_, .whole hdigits⟩
      · exact ⟨_, .decimal hwhole hpart⟩
    | string hbody => exact ⟨_, .string hbody⟩
  · rintro ⟨kind, h⟩
    cases h with
    | sign hkind => exact .sign hkind
    | keyword hkind =>
      obtain ⟨-, c, rest, hspelling, hc, hrest⟩ := Kind.ofWord_of_mem_keywords hkind
      exact .word ⟨c, rest, hspelling, hc, hrest⟩
    | name hname =>
      obtain ⟨c, rest, rfl, hc⟩ := hname.starts
      exact .word ⟨c, rest, rfl, hc, fun d hd => hname.continues d (List.mem_cons_of_mem c hd)⟩
    | string hbody => exact .string hbody
    | whole hdigits => exact .number (.inl hdigits)
    | decimal hwhole hpart => exact .number (.inr ⟨_, _, rfl, hwhole, hpart⟩)

/-- What is of the kind of a word of the language is spelled like it. -/
theorem Lexeme.mem_keywords_iff (h : Lexeme kind text) :
    kind ∈ Kind.keywords ↔ ∃ keyword ∈ Kind.keywords, keyword.spelling.toList = text := by
  constructor
  · intro hkind
    cases h with
    | sign hsign =>
      have hnone : ∀ kind ∈ Kind.signs, kind ∉ Kind.keywords := by decide
      exact absurd hkind (hnone kind hsign)
    | keyword hkind => exact ⟨kind, hkind, rfl⟩
    | name | string | whole | decimal => exact absurd hkind (by decide)
  · rintro ⟨keyword, hkeyword, rfl⟩
    rwa [h.kind_eq (.keyword hkeyword)]

theorem Lexeme.denotes (h : Lexeme kind text) (line : Int) :
    Token.Denotes text ⟨kind, String.ofList text, Scan.literalOf kind text, line⟩ := by
  refine ⟨rfl, h, h.mem_keywords_iff, rfl, ?_⟩
  rintro body rfl
  obtain ⟨c, rest, heq, hforms⟩ := h.forms
  obtain ⟨rfl, -⟩ := List.cons.inj heq
  rw [(hforms.quote rfl).2]
  simp [Scan.literalOf]

theorem Token.Denotes.hasForm {t : Token} (h : Token.Denotes text t) : HasForm text :=
  hasForm_iff.mpr ⟨t.kind, h.kind⟩

/-- What a lexeme denotes does not depend on where it is written. -/
theorem Token.Denotes.content_eq {t t' : Token} (h : Token.Denotes text t)
    (h' : Token.Denotes text t') :
    t.content = t'.content := by
  have hkind := h.kind.kind_eq h'.kind
  simp only [content, h.lexeme, h'.lexeme, h.literal, h'.literal, hkind]

end Forms

section Places

variable {kind : Kind} {c : Char} {text rest : List Char}

theorem continuesName_not_blank (h : continuesName c = true) : Text.isBlank c = false := by
  cases hstarts : startsName c with
  | true => exact (startsNameOnly hstarts).blank
  | false =>
    refine (digitOnly ?_).blank
    simp only [startsName, Bool.or_eq_false_iff] at hstarts
    simpa [continuesName, Char.isAlphanum, hstarts] using h

/-- White space belongs to no lexeme but a string. -/
theorem Lexeme.not_blank (h : Lexeme kind text) (hquote : text.head? ≠ some '"') :
    ∀ c ∈ text, Text.isBlank c = false := by
  have hdigits {digits : List Char} (h : IsDigits digits) :
      ∀ c ∈ digits, Text.isBlank c = false := fun c hc => (digitOnly (h.digits c hc)).blank
  cases h with
  | sign hkind =>
    have key : ∀ kind ∈ Kind.signs,
        kind.spelling.toList.all (fun c => !Text.isBlank c) = true := by decide
    simpa using key _ hkind
  | keyword hkind =>
    have key : ∀ kind ∈ Kind.keywords,
        kind.spelling.toList.all (fun c => !Text.isBlank c) = true := by decide
    simpa using key _ hkind
  | name hname => exact fun c hc => continuesName_not_blank (hname.continues c hc)
  | string => exact absurd rfl hquote
  | whole h => exact hdigits h
  | decimal hwhole hpart =>
    intro c hc
    rcases List.mem_append.mp hc with hc | hc
    · exact hdigits hwhole c hc
    rcases List.mem_cons.mp hc with rfl | hc
    · decide
    · exact hdigits hpart c hc

/-- A string does not go on behind its second quote. -/
theorem Lexeme.length_le_of_quote {kind' : Kind} {body text' : List Char}
    (h' : Lexeme kind' text') (hfront : text' <+: '"' :: (body ++ ['"'] ++ rest)) :
    text'.length ≤ ('"' :: (body ++ ['"'])).length := by
  obtain ⟨d, tail, rfl, hforms⟩ := h'.forms
  obtain ⟨rfl, htail⟩ := List.cons_prefix_cons.mp hfront
  obtain ⟨⟨body', rfl, hbody'⟩, -⟩ := hforms.quote rfl
  have hle : body'.length ≤ body.length := by
    by_contra hlt
    -- The longer string would have the quote of the shorter one inside.
    have hinside : body ++ ['"'] <+: body' := by
      have hwhole : body ++ ['"'] <+: body ++ ['"'] ++ rest := List.prefix_append _ _
      refine List.prefix_of_prefix_length_le hwhole ((List.prefix_append body' ['"']).trans htail) ?_
      simp only [List.length_append, List.length_singleton]
      omega
    exact hbody' (hinside.subset (by simp))
  simpa using hle

/-- No lexeme goes on into white space. -/
theorem Lexeme.isLongest_of_blank (h : Lexeme kind text)
    (hrest : ∀ c ∈ rest.head?, Text.isBlank c = true) : IsLongest kind text (text ++ rest) := by
  refine ⟨h, List.prefix_append text rest, fun kind' text' h' hfront => ?_⟩
  by_cases hquote : text.head? = some '"'
  · obtain ⟨c, tail, rfl, hforms⟩ := h.forms
    obtain rfl : c = '"' := Option.some.inj hquote
    obtain ⟨⟨body, rfl, -⟩, -⟩ := hforms.quote rfl
    exact length_le_of_quote h' hfront
  · by_contra hlt
    rw [Nat.not_le] at hlt
    cases rest with
    | nil => exact absurd (List.append_nil text ▸ hfront.length_le) (Nat.not_le.mpr hlt)
    | cons c more =>
      have hlonger : text ++ [c] <+: text' := by
        refine List.prefix_of_prefix_length_le ⟨more, by simp⟩ hfront ?_
        rw [List.length_append]
        exact hlt
      have hhead : text'.head? = text.head? := by
        obtain ⟨d, tail, rfl, -⟩ := h.forms
        obtain ⟨tail', rfl⟩ := hlonger
        rfl
      have hnot := h'.not_blank (hhead ▸ hquote) c (hlonger.subset (by simp))
      rw [hrest c rfl] at hnot
      cases hnot

/-- A lexeme fits in front of white space, and at the end. -/
theorem Lexeme.fits_of_blank (h : Lexeme kind text)
    (hrest : ∀ c ∈ rest.head?, Text.isBlank c = true) : (Segment.lexeme kind text).Fits rest := by
  have hlongest := h.isLongest_of_blank hrest
  refine ⟨hlongest, fun hopens => ?_⟩
  obtain ⟨c, tail, rfl, hforms⟩ := h.forms
  obtain ⟨rfl, hopens⟩ := List.cons_prefix_cons.mp hopens
  -- The only lexeme that a slash starts is the slash, and white space is none.
  have hspelled := hforms.sign (by decide) (by decide) (by decide)
  rcases hspelled.text_eq with rfl | ⟨-, hjoinable⟩
  · obtain ⟨more, heq⟩ := hopens
    obtain rfl : rest = '/' :: more := (List.cons.inj heq).2.symm
    exact absurd (hrest '/' rfl) (by decide)
  · exact hjoinable rfl

end Places

namespace Segment

/-- Whether a segment means nothing. -/
def IsTrivial : Segment → Prop
  | blank _ | comment _ => True
  | _ => False

/-- White space and comments in front of a text. -/
theorem division_trivia {trivia rest : List Char} {segments : List Segment} (h : IsTrivia trivia)
    (hrest : Division rest segments) :
    ∃ front, (∀ s ∈ front, s.IsTrivial) ∧ Division (trivia ++ rest) (front ++ segments) := by
  induction h with
  | nil => exact ⟨[], nofun, hrest⟩
  | @blank c more hc _ ih =>
    obtain ⟨front, hfront, hdivision⟩ := ih
    refine ⟨blank c :: front, List.forall_mem_cons.mpr ⟨trivial, hfront⟩, ?_⟩
    exact .cons (show (blank c).text ≠ [] from List.cons_ne_nil c []) hc hdivision
  | @comment body more hbody _ ih =>
    obtain ⟨front, hfront, hdivision⟩ := ih
    have hnewline : Division ('\n' :: (more ++ rest)) (blank '\n' :: (front ++ segments)) :=
      .cons (show (blank '\n').text ≠ [] from List.cons_ne_nil _ [])
        (by decide : Text.isBlank '\n' = true) hdivision
    refine ⟨comment ('/' :: '/' :: body) :: blank '\n' :: front,
      List.forall_mem_cons.mpr ⟨trivial, List.forall_mem_cons.mpr ⟨trivial, hfront⟩⟩, ?_⟩
    rw [List.append_assoc, List.cons_append]
    refine .cons (show (comment ('/' :: '/' :: body)).text ≠ [] from List.cons_ne_nil _ _)
      ⟨⟨body, rfl⟩, by simpa using hbody, Or.inr rfl⟩ hnewline

end Segment

namespace Scan

open Segment

/-- Nothing is read of white space and comments but the line they end on. -/
theorem ofSegments_trivial {front : List Segment} (h : ∀ s ∈ front, s.IsTrivial)
    (segments : List Segment) (line : Int) :
    ∃ line', ofSegments line (front ++ segments) = ofSegments line' segments := by
  induction front generalizing line with
  | nil => exact ⟨line, rfl⟩
  | cons s front ih =>
    obtain ⟨hs, hfront⟩ := List.forall_mem_cons.mp h
    cases s with
    | blank c => exact ih hfront _
    | comment text => exact ih hfront _
    | _ => exact hs.elim

/-- Whether a scan has tokens for lexemes and an end marker, and nothing is wrong. -/
def Reads (lexemes : List (List Char)) (scan : Scan) : Prop :=
  scan.diagnostics = [] ∧ ∃ tokens last, List.Forall₂ Token.Denotes lexemes tokens ∧
    scan.tokens = tokens ++ [Token.bare .endOfInput "" last]

/-- Written lexemes are the segments of what is written, but for white space and comments. -/
theorem exists_division_of_written {lexemes : List (List Char)} {written : List Char}
    (h : Written lexemes written) :
    ∃ segments, Division written segments ∧ ∀ line, Reads lexemes (ofSegments line segments) := by
  -- A lexeme with a text behind it that starts with white space, if with anything.
  have step {text separator rest : List Char} {more : List (List Char)} {segments : List Segment}
      (htext : HasForm text) (hblank : ∀ c ∈ (separator ++ rest).head?, Text.isBlank c = true)
      (htrivia : IsTrivia separator) (hrest : Division rest segments)
      (hreads : ∀ line, Reads more (ofSegments line segments)) :
      ∃ segments, Division (text ++ (separator ++ rest)) segments ∧
        ∀ line, Reads (text :: more) (ofSegments line segments) := by
    obtain ⟨kind, hlexeme⟩ := hasForm_iff.mp htext
    obtain ⟨front, hfront, hdivision⟩ := division_trivia htrivia hrest
    have hne : (lexeme kind text).text ≠ [] := by
      obtain ⟨c, tail, rfl, -⟩ := hlexeme.forms
      exact List.cons_ne_nil c tail
    refine ⟨lexeme kind text :: (front ++ segments),
      .cons hne (hlexeme.fits_of_blank hblank) hdivision,
      fun line => ?_⟩
    obtain ⟨line', hline'⟩ := ofSegments_trivial hfront segments (line + newlines text)
    obtain ⟨hquiet, tokens, last, hdenotes, htokens⟩ := hreads line'
    have hscan : ofSegments line (lexeme kind text :: (front ++ segments)) =
        { ofSegments line' segments with
          tokens := ⟨kind, String.ofList text, literalOf kind text, line + newlines text⟩ ::
            (ofSegments line' segments).tokens } := by
      rw [← hline']
      rfl
    rw [hscan]
    exact ⟨hquiet, _ :: tokens, last, .cons (hlexeme.denotes _) hdenotes,
      congrArg (List.cons _) htokens⟩
  have trivia {separator : List Char} (h : IsSeparator separator) :
      IsTrivia separator ∧ ∀ rest, ∀ c ∈ (separator ++ rest).head?, Text.isBlank c = true := by
    obtain ⟨c, more, rfl, hc, hmore⟩ := h
    refine ⟨.blank hc hmore, fun rest d hd => ?_⟩
    rwa [← Option.some.inj hd]
  have hnone (line : Int) : Reads [] (ofSegments line []) := ⟨rfl, [], line, .nil, rfl⟩
  induction h with
  | nil => exact ⟨[], .nil, hnone⟩
  | @last text after htext hafter =>
    rw [← List.append_nil after]
    rcases hafter with rfl | hafter
    · exact step htext nofun .nil .nil hnone
    · obtain ⟨htrivia, hblank⟩ := trivia hafter
      exact step htext (hblank []) htrivia .nil hnone
  | cons htext hseparator _ ih =>
    obtain ⟨segments, hdivision, hreads⟩ := ih
    obtain ⟨htrivia, hblank⟩ := trivia hseparator
    rw [List.append_assoc]
    exact step htext (hblank _) htrivia hdivision hreads

theorem reads_of_written {lexemes : List (List Char)} {written : List Char}
    (h : Written lexemes written) : Reads lexemes (ofSource written) := by
  obtain ⟨segments, hdivision, hreads⟩ := exists_division_of_written h
  rw [ofSource, ← hdivision.eq_split]
  exact hreads 1

/-- Tokens stand for lexemes, also in a source with which something is wrong. -/
theorem exists_denoted {source : List Char} {segments : List Segment}
    (h : Division source segments) (line : Int) :
    ∃ lexemes tokens last, List.Forall₂ Token.Denotes lexemes tokens ∧
      (ofSegments line segments).tokens = tokens ++ [Token.bare .endOfInput "" last] := by
  induction segments generalizing source line with
  | nil => exact ⟨[], [], line, .nil, rfl⟩
  | cons segment more ih =>
    obtain ⟨-, -, hfits, hmore⟩ := h.tail
    obtain ⟨lexemes, tokens, last, hdenotes, htokens⟩ := ih hmore (line + newlines segment.text)
    cases segment with
    | lexeme kind text =>
      exact ⟨text :: lexemes, _ :: tokens, last, .cons (hfits.1.lexeme.denotes _) hdenotes,
        congrArg (List.cons _) htokens⟩
    | _ => exact ⟨lexemes, tokens, last, hdenotes, htokens⟩

/-- Lexemes are written with single blanks between them, and with one behind them. -/
theorem written_intercalate {lexemes : List (List Char)} (h : ∀ text ∈ lexemes, HasForm text) :
    Written lexemes ([' '].intercalate lexemes) ∧
      Written lexemes ([' '].intercalate (lexemes ++ [[]])) := by
  have hblank : IsSeparator [' '] := ⟨' ', [], rfl, by decide, .nil⟩
  induction lexemes with
  | nil => exact ⟨.nil, .nil⟩
  | cons text more ih =>
    obtain ⟨htext, hmore⟩ := List.forall_mem_cons.mp h
    cases more with
    | nil =>
      have hlast : Written [text] (text ++ []) := .last htext (Or.inl rfl)
      have hjoined : [' '].intercalate [text] = text ++ [] := by simp
      exact ⟨hjoined ▸ hlast, .last htext (Or.inr hblank)⟩
    | cons next more =>
      obtain ⟨hbetween, hbehind⟩ := ih hmore
      have hstep (rest : List (List Char)) : [' '].intercalate (text :: next :: rest) =
          text ++ [' '] ++ [' '].intercalate (next :: rest) := by
        simp [List.intercalate, List.intersperse]
      rw [List.cons_append, List.cons_append, hstep, hstep]
      exact ⟨.cons htext hblank hbetween, .cons htext hblank hbehind⟩

/-- What has been read twice is the same but for the lines. -/
theorem content_eq_of_denotes {lexemes : List (List Char)} {ts ts' : List Token}
    (h : List.Forall₂ Token.Denotes lexemes ts) (h' : List.Forall₂ Token.Denotes lexemes ts') :
    ts.map Token.content = ts'.map Token.content := by
  induction h generalizing ts' with
  | nil =>
    cases h'
    rfl
  | cons ht _ ih =>
    cases h' with
    | cons ht' hmore' => rw [List.map_cons, List.map_cons, ht.content_eq ht', ih hmore']

theorem lexemes_of_denotes {lexemes : List (List Char)} {ts : List Token}
    (h : List.Forall₂ Token.Denotes lexemes ts) :
    ts.map (fun t => t.lexeme.toList) = lexemes ∧ ∀ text ∈ lexemes, HasForm text := by
  induction h with
  | nil => exact ⟨rfl, nofun⟩
  | cons ht _ ih =>
    refine ⟨?_, List.forall_mem_cons.mpr ⟨ht.hasForm, ih.2⟩⟩
    rw [List.map_cons, ht.lexeme, String.toList_ofList, ih.1]

/-- Written lexemes are scanned: nothing is reported, and there is one token for each lexeme, and the
end marker.  So the lexemes of any source, joined by single blanks, are scanned as what they were,
be the empty lexeme of the end marker one of them or not. -/
theorem ofSource_written :
    (∀ lexemes written, Written lexemes written →
      (ofSource written).diagnostics = [] ∧ ∃ tokens last,
        List.Forall₂ Token.Denotes lexemes tokens ∧
          (ofSource written).tokens = tokens ++ [Token.bare .endOfInput "" last]) ∧
    ∀ source, ∀ ts ∈ [(ofSource source).tokens, (ofSource source).tokens.dropLast],
      let again := ofSource ([' '].intercalate (ts.map fun t => t.lexeme.toList))
      again.diagnostics = [] ∧
        again.tokens.map Token.content = (ofSource source).tokens.map Token.content := by
  refine ⟨fun lexemes written h => reads_of_written h, fun source ts hts => ?_⟩
  obtain ⟨lexemes, tokens, last, hdenotes, htokens⟩ :=
    exists_denoted (division_split source) 1
  have htokens : (ofSource source).tokens = tokens ++ [Token.bare .endOfInput "" last] := htokens
  obtain ⟨hlexemes, hforms⟩ := lexemes_of_denotes hdenotes
  obtain ⟨hbetween, hbehind⟩ := written_intercalate hforms
  have hwritten : Written lexemes ([' '].intercalate (ts.map fun t => t.lexeme.toList)) := by
    rw [htokens, List.dropLast_concat] at hts
    rcases List.mem_cons.mp hts with rfl | hts
    · rw [List.map_append, hlexemes]
      exact hbehind
    · rw [List.mem_singleton.mp hts, hlexemes]
      exact hbetween
  obtain ⟨hquiet, tokens', last', hdenotes', htokens'⟩ := reads_of_written hwritten
  refine ⟨hquiet, ?_⟩
  rw [htokens', htokens, List.map_append, List.map_append,
    content_eq_of_denotes hdenotes' hdenotes]
  rfl

section Cases

/-- A slash, a string that looks like a comment, a word of the language and a name. -/
def slashOrs : List (List Char) :=
  [['/'], ['"', '/', '/', '\n', '"'], ['o', 'r'], ['o', 'r', 's']]

/-- They are written with a comment behind the slash, a page break and a newline. -/
def slashOrsWritten : List Char :=
  ['/'] ++ [' ', '/', '/', '=', '\n'] ++ (['"', '/', '/', '\n', '"'] ++ ['\x0c'] ++
    (['o', 'r'] ++ ['\n'] ++ (['o', 'r', 's'] ++ [])))

theorem slashOrs_written :
    Written slashOrs slashOrsWritten ∧
      (ofSource slashOrsWritten).diagnostics = [] ∧
      (ofSource slashOrsWritten).tokens.map Token.content =
        [(.slash, "/", none), (.string, "\"//\n\"", some (.text "//\n")), (.orWord, "or", none),
          (.identifier, "ors", none), (.endOfInput, "", none)] ∧
      let again := ofSource ([' '].intercalate
        ((ofSource slashOrsWritten).tokens.dropLast.map fun t => t.lexeme.toList))
      again.tokens.map Token.content = (ofSource slashOrsWritten).tokens.map Token.content := by
  have hslash : HasForm ['/'] := .sign (show Kind.slash ∈ Kind.signs by decide)
  have hstring : HasForm ['"', '/', '/', '\n', '"'] :=
    .string (show '"' ∉ ['/', '/', '\n'] by decide)
  have hword : HasForm ['o', 'r'] := .word ⟨'o', ['r'], rfl, rfl, List.all_eq_true.mp rfl⟩
  have hname : HasForm ['o', 'r', 's'] :=
    .word ⟨'o', ['r', 's'], rfl, rfl, List.all_eq_true.mp rfl⟩
  have hcomment : IsSeparator [' ', '/', '/', '=', '\n'] :=
    ⟨' ', _, rfl, by decide, .comment (show '\n' ∉ ['='] by decide) .nil⟩
  have hwritten : Written slashOrs slashOrsWritten :=
    .cons hslash hcomment (.cons hstring ⟨'\x0c', [], rfl, by decide, .nil⟩
      (.cons hword ⟨'\n', [], rfl, by decide, .nil⟩ (.last hname (Or.inl rfl))))
  refine ⟨hwritten, (ofSource_written.1 _ _ hwritten).1, by cbv, ?_⟩
  exact (ofSource_written.2 slashOrsWritten _ (by simp)).2

end Cases

end Scan
end LoxLang

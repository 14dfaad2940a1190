import LoxLang.Proofs.Token.Words

/-!
# The lexical grammar

**Lexemes.** The grammar says which texts are lexemes and of what kind each is: punctuators and
operators as their kinds are spelled, the words of the language, names, strings without a quote
inside, and digits that may go on behind a point.  It says nothing of how a source is read.

**Places.** A segment fits a place of a source when it is the longest lexeme that starts there, or
white space, or a comment up to the end of its line, or a quote that is never closed, or, where
none of these starts, a single character.  Two slashes start a comment and no lexeme.

**Results.**
* `Lexeme.forms`: the first character of a lexeme says what form the lexeme has.
* `Segment.fits_first`: the segment that a text starts with fits there.
* `Segment.Fits.unique`: no other segment fits there.
-/

namespace LoxLang

section Grammar

/-- The kinds that are written as punctuators and operators. -/
def Kind.signs : List Kind :=
  [leftParen, rightParen, leftBrace, rightBrace, comma, dot, semicolon, minus, plus, slash, star,
   bang, bangEqual, equal, equalEqual, greater, greaterEqual, less, lessEqual]

/-- Whether a text is one digit or more. -/
structure IsDigits (cs : List Char) : Prop where
  nonempty : cs ≠ []
  digits : ∀ c ∈ cs, c.isDigit = true

/-- Which texts are lexemes, and of what kind. -/
inductive Lexeme : Kind → List Char → Prop
  | sign {kind : Kind} : kind ∈ Kind.signs → Lexeme kind kind.spelling.toList
  | keyword {kind : Kind} : kind ∈ Kind.keywords → Lexeme kind kind.spelling.toList
  | name {word : List Char} : IsName word → Lexeme .identifier word
  | string {body : List Char} : '"' ∉ body → Lexeme .string ('"' :: body ++ ['"'])
  | whole {digits : List Char} : IsDigits digits → Lexeme .number digits
  | decimal {whole part : List Char} :
    IsDigits whole → IsDigits part → Lexeme .number (whole ++ '.' :: part)

/-- Whether two slashes start a text. -/
def OpensComment (cs : List Char) : Prop := ['/', '/'] <+: cs

/-- Whether a text is the longest lexeme that another text starts with. -/
structure IsLongest (kind : Kind) (text cs : List Char) : Prop where
  lexeme : Lexeme kind text
  starts : text <+: cs
  longest : ∀ kind' text', Lexeme kind' text' → text' <+: cs → text'.length ≤ text.length

/-- Whether a segment is one that a source is divided into in front of a text. -/
def Segment.Fits (rest : List Char) : Segment → Prop
  | lexeme kind text => IsLongest kind text (text ++ rest) ∧ ¬ OpensComment (text ++ rest)
  | blank c => Text.isBlank c = true
  | comment text => OpensComment text ∧ '\n' ∉ text ∧ (rest = [] ∨ rest.head? = some '\n')
  | stray c =>
    (∀ kind text, Lexeme kind text → ¬ text <+: c :: rest) ∧ Text.isBlank c = false ∧ c ≠ '"'
  | unclosed text => ∃ body, text = '"' :: body ∧ '"' ∉ body ∧ rest = []

end Grammar

section Characters

variable {c : Char}

/-- What a digit is not. -/
structure DigitOnly (c : Char) : Prop where
  kind : Kind.ofChar? c = none
  joinable : Kind.ofJoinable? c = none
  sign : c ≠ '/' ∧ c ≠ '"'
  blank : Text.isBlank c = false
  starts : startsName c = false

/-- What holds of the first characters by number holds of those with these numbers. -/
theorem forall_ascii {p : Char → Prop} (h : ∀ n : Fin 128, p (Char.ofNat n))
    (hc : c.toNat < 128) : p c := by
  have hn := h ⟨c.toNat, hc⟩
  rwa [Char.ofNat_toNat] at hn

theorem digitOnly (h : c.isDigit = true) : DigitOnly c := by
  have hlt : c.toNat < 128 := by
    have hle : c.val ≤ '9'.val := of_decide_eq_true (Bool.and_eq_true_iff.mp h).2
    exact Nat.lt_of_le_of_lt (UInt32.le_iff_toNat_le.mp hle) (by decide)
  have key := forall_ascii (p := fun c => c.isDigit = true →
    (Kind.ofChar? c = none ∧ Kind.ofJoinable? c = none) ∧ (c ≠ '/' ∧ c ≠ '"') ∧
      Text.isBlank c = false ∧ startsName c = false) (by decide) hlt
  obtain ⟨⟨hkind, hjoinable⟩, hsign, hblank, hstarts⟩ := key h
  exact ⟨hkind, hjoinable, hsign, hblank, hstarts⟩

/-- What the first character of a punctuator or an operator is not. -/
structure SignOnly (c : Char) : Prop where
  starts : startsName c = false
  digit : c.isDigit = false
  quote : c ≠ '"'
  blank : Text.isBlank c = false

/-- How punctuators and operators are spelled, by the tables that they are read by. -/
inductive Kind.Spelled : Kind → Char → List Char → Prop
  | char {kind : Kind} {c : Char} : ofChar? c = some kind → Spelled kind c []
  | alone {kind joined : Kind} {c : Char} : ofJoinable? c = some (kind, joined) → Spelled kind c []
  | joined {alone kind : Kind} {c : Char} :
    ofJoinable? c = some (alone, kind) → Spelled kind c ['=']
  | slash : Spelled slash '/' []

theorem Kind.spelled_of_mem_signs {kind : Kind} (h : kind ∈ signs) :
    ∃ c text, kind.spelling.toList = c :: text ∧ Spelled kind c text ∧ SignOnly c := by
  have only (c : Char) (hc : startsName c = false ∧ c.isDigit = false ∧ c ≠ '"' ∧
      Text.isBlank c = false) : SignOnly c := ⟨hc.1, hc.2.1, hc.2.2.1, hc.2.2.2⟩
  simp only [signs, List.mem_cons, List.not_mem_nil, or_false] at h
  rcases h with rfl | rfl | rfl | rfl | rfl | rfl | rfl | rfl | rfl | rfl | rfl | rfl | rfl | rfl |
    rfl | rfl | rfl | rfl | rfl
  all_goals
    refine ⟨_, _, rfl, ?_, only _ (by decide)⟩
    first
    | exact .char rfl
    | exact .alone rfl
    | exact .joined rfl
    | exact .slash

namespace Kind.Spelled

variable {kind : Kind} {text : List Char}

theorem spelling (h : Spelled kind c text) :
    kind ∈ signs ∧ kind.spelling.toList = c :: text := by
  cases h with
  | char h =>
    unfold ofChar? at h
    split at h <;> cases h <;> exact ⟨by decide, rfl⟩
  | alone h =>
    unfold ofJoinable? at h
    split at h <;> cases h <;> exact ⟨by decide, rfl⟩
  | joined h =>
    unfold ofJoinable? at h
    split at h <;> cases h <;> exact ⟨by decide, rfl⟩
  | slash => exact ⟨by decide, rfl⟩

theorem only (h : Spelled kind c text) : SignOnly c := by
  obtain ⟨d, _, heq, -, honly⟩ := spelled_of_mem_signs h.spelling.1
  obtain ⟨rfl, -⟩ := List.cons.inj (h.spelling.2.symm.trans heq)
  exact honly

theorem lexeme (h : Spelled kind c text) : Lexeme kind (c :: text) :=
  h.spelling.2 ▸ .sign h.spelling.1

/-- Only a joinable operator goes on, and with an equals sign. -/
theorem text_eq (h : Spelled kind c text) : text = [] ∨ text = ['='] ∧ ofJoinable? c ≠ none := by
  cases h with
  | char | alone | slash => exact Or.inl rfl
  | joined h => exact Or.inr ⟨rfl, by rw [h]; exact Option.some_ne_none _⟩

end Kind.Spelled

end Characters

section Forms

variable {kind : Kind} {c : Char} {text : List Char}

/-- What forms the lexemes of numbers have. -/
def IsNumber (cs : List Char) : Prop :=
  IsDigits cs ∨ ∃ whole part, cs = whole ++ '.' :: part ∧ IsDigits whole ∧ IsDigits part

/-- What the first character of a lexeme says of the lexeme. -/
structure Lexeme.Forms (kind : Kind) (c : Char) (text : List Char) : Prop where
  blank : Text.isBlank c = false
  word : startsName c = true →
    (∀ d ∈ text, continuesName d = true) ∧ kind = Kind.ofWord (c :: text)
  digit : c.isDigit = true → IsNumber (c :: text) ∧ kind = .number
  quote : c = '"' → (∃ body, text = body ++ ['"'] ∧ '"' ∉ body) ∧ kind = .string
  sign : startsName c = false → c.isDigit = false → c ≠ '"' → Kind.Spelled kind c text

theorem Lexeme.forms_of_word (hc : startsName c = true)
    (h : (∀ d ∈ text, continuesName d = true) ∧ kind = Kind.ofWord (c :: text)) :
    Forms kind c text where
  blank := (startsNameOnly hc).blank
  word _ := h
  digit hdigit := by rw [(startsNameOnly hc).digit] at hdigit; cases hdigit
  quote hquote := absurd hquote (startsNameOnly hc).sign.2.1
  sign hstarts := by rw [hc] at hstarts; cases hstarts

theorem Lexeme.forms_of_digit (hc : c.isDigit = true)
    (h : IsNumber (c :: text) ∧ kind = .number) : Forms kind c text where
  blank := (digitOnly hc).blank
  word hstarts := by rw [(digitOnly hc).starts] at hstarts; cases hstarts
  digit _ := h
  quote hquote := absurd hquote (digitOnly hc).sign.2
  sign _ hdigit := by rw [hc] at hdigit; cases hdigit

theorem Lexeme.forms_of_quote (h : (∃ body, text = body ++ ['"'] ∧ '"' ∉ body) ∧ kind = .string) :
    Forms kind '"' text where
  blank := by decide
  word hstarts := absurd hstarts (by decide)
  digit hdigit := absurd hdigit (by decide)
  quote _ := h
  sign _ _ hquote := absurd rfl hquote

theorem Lexeme.forms_of_sign (hc : SignOnly c) (h : Kind.Spelled kind c text) :
    Forms kind c text where
  blank := hc.blank
  word hstarts := by rw [hc.starts] at hstarts; cases hstarts
  digit hdigit := by rw [hc.digit] at hdigit; cases hdigit
  quote hquote := absurd hquote hc.quote
  sign _ _ _ := h

theorem IsDigits.of_cons (h : IsDigits (c :: text)) : c.isDigit = true :=
  h.digits c List.mem_cons_self

/-- A word of the language is of the kind that words spelled so are of. -/
theorem Kind.ofWord_of_mem_keywords (h : kind ∈ keywords) :
    ofWord kind.spelling.toList = kind ∧
      ∃ c text, kind.spelling.toList = c :: text ∧ startsName c = true ∧
        ∀ d ∈ text, continuesName d = true := by
  have key : ∀ kind ∈ keywords, ofWord kind.spelling.toList = kind ∧
      kind.spelling.toList.head?.any startsName = true ∧
      kind.spelling.toList.all continuesName = true := by decide
  obtain ⟨hword, hstarts, hcontinues⟩ := key kind h
  cases hspelling : kind.spelling.toList with
  | nil =>
    rw [hspelling] at hstarts
    cases hstarts
  | cons c text =>
    rw [hspelling] at hword hstarts hcontinues
    refine ⟨hword, c, text, rfl, hstarts, fun d hd => ?_⟩
    exact List.all_eq_true.mp hcontinues d (List.mem_cons_of_mem c hd)

theorem Lexeme.forms {cs : List Char} (h : Lexeme kind cs) :
    ∃ c text, cs = c :: text ∧ Forms kind c text := by
  cases h with
  | sign hkind =>
    obtain ⟨c, text, hspelling, hspelled, honly⟩ := Kind.spelled_of_mem_signs hkind
    exact ⟨c, text, hspelling, forms_of_sign honly hspelled⟩
  | keyword hkind =>
    obtain ⟨hword, c, text, hspelling, hstarts, hcontinues⟩ := Kind.ofWord_of_mem_keywords hkind
    rw [hspelling] at hword
    exact ⟨c, text, hspelling, forms_of_word hstarts ⟨hcontinues, hword.symm⟩⟩
  | name hname =>
    obtain ⟨c, text, rfl, hstarts⟩ := hname.starts
    exact ⟨c, text, rfl, forms_of_word hstarts
      ⟨fun d hd => hname.continues d (List.mem_cons_of_mem c hd), hname.word.symm⟩⟩
  | @string body hbody => exact ⟨'"', _, rfl, forms_of_quote ⟨⟨body, rfl, hbody⟩, rfl⟩⟩
  | whole hdigits =>
    obtain ⟨c, text, rfl⟩ := List.exists_cons_of_ne_nil hdigits.nonempty
    exact ⟨c, text, rfl, forms_of_digit hdigits.of_cons ⟨.inl hdigits, rfl⟩⟩
  | @decimal whole part hwhole hpart =>
    obtain ⟨c, text, rfl⟩ := List.exists_cons_of_ne_nil hwhole.nonempty
    exact ⟨c, _, rfl, forms_of_digit hwhole.of_cons ⟨.inr ⟨_, part, rfl, hwhole, hpart⟩, rfl⟩⟩

/-- A text is a lexeme of one kind at most. -/
theorem Lexeme.kind_eq {kind' : Kind} {cs : List Char} (h : Lexeme kind cs)
    (h' : Lexeme kind' cs) : kind = kind' := by
  have spelling_injective : ∀ kind ∈ Kind.all, ∀ kind' ∈ Kind.all,
      kind.spelling = kind'.spelling → kind = kind' := by decide
  obtain ⟨c, text, rfl, hforms⟩ := h.forms
  obtain ⟨c', text', heq, hforms'⟩ := h'.forms
  obtain ⟨rfl, rfl⟩ := List.cons.inj heq
  by_cases hword : startsName c = true
  · rw [(hforms.word hword).2, (hforms'.word hword).2]
  by_cases hdigit : c.isDigit = true
  · rw [(hforms.digit hdigit).2, (hforms'.digit hdigit).2]
  by_cases hquote : c = '"'
  · rw [(hforms.quote hquote).2, (hforms'.quote hquote).2]
  have hs := (hforms.sign (by simpa using hword) (by simpa using hdigit) hquote).spelling
  have hs' := (hforms'.sign (by simpa using hword) (by simpa using hdigit) hquote).spelling
  exact spelling_injective _ (Kind.mem_all kind) _ (Kind.mem_all kind')
    (String.toList_inj.mp (hs.2.trans hs'.2.symm))

end Forms

namespace Segment

section First

variable {kind : Kind} {c : Char} {text rest after : List Char}

/-- A lexeme fits when no longer one has its first character. -/
theorem fits_of_first (hfirst : first c rest = (lexeme kind text, after))
    (hlexeme : Lexeme kind text)
    (hlongest : ∀ kind' text', Lexeme.Forms kind' c text' → text' <+: rest →
      (c :: text').length ≤ text.length)
    (hcomment : ¬ OpensComment (c :: rest)) :
    (first c rest).1.Fits (first c rest).2 := by
  have htext : text ++ after = c :: rest := by
    have happend := text_append_first c rest
    rwa [hfirst] at happend
  rw [hfirst]
  refine ⟨⟨hlexeme, List.prefix_append text after, fun kind' text' hlexeme' hfront => ?_⟩, ?_⟩
  · obtain ⟨d, text', rfl, hforms⟩ := hlexeme'.forms
    rw [htext, List.cons_prefix_cons] at hfront
    obtain ⟨rfl, hfront⟩ := hfront
    exact hlongest kind' text' hforms hfront
  · rwa [htext]

theorem not_opensComment (hc : c ≠ '/') : ¬ OpensComment (c :: rest) := by
  intro h
  exact hc (List.cons_prefix_cons.mp h).1.symm

/-- Behind a sign that is not joined no lexeme goes on. -/
theorem fits_of_alone (hfirst : first c rest = (lexeme kind [c], rest))
    (hspelled : Kind.Spelled kind c [])
    (halone : Kind.ofJoinable? c = none ∨ ¬ ['='] <+: rest)
    (hcomment : ¬ OpensComment (c :: rest)) : (first c rest).1.Fits (first c rest).2 := by
  refine fits_of_first hfirst hspelled.lexeme (fun kind' text' hforms hfront => ?_) hcomment
  have honly := hspelled.only
  rcases (hforms.sign honly.starts honly.digit honly.quote).text_eq with rfl | ⟨rfl, hjoinable⟩
  · exact le_rfl
  · exact (halone.elim hjoinable fun hnot => hnot hfront).elim

theorem fits_operator {alone joined : Kind} (hjoinable : Kind.ofJoinable? c = some (alone, joined))
    (hfirst : first c rest = firstOperator c alone joined rest) (hc : c ≠ '/') :
    (first c rest).1.Fits (first c rest).2 := by
  by_cases hnext : ∃ more, rest = '=' :: more
  · obtain ⟨more, rfl⟩ := hnext
    have hspelled : Kind.Spelled joined c ['='] := .joined hjoinable
    refine fits_of_first hfirst hspelled.lexeme (fun kind' text' hforms hfront => ?_)
      (not_opensComment hc)
    have honly := hspelled.only
    rcases (hforms.sign honly.starts honly.digit honly.quote).text_eq with rfl | ⟨rfl, -⟩
    · exact Nat.le_succ 1
    · exact le_rfl
  · have hne : ∀ more, rest ≠ '=' :: more := fun more heq => hnext ⟨more, heq⟩
    rw [firstOperator_of_ne hne] at hfirst
    refine fits_of_alone hfirst (.alone hjoinable) (Or.inr ?_) (not_opensComment hc)
    rintro ⟨more, rfl⟩
    exact hne more rfl

theorem fits_slash (hfirst : first '/' rest = firstSlash rest) :
    (first '/' rest).1.Fits (first '/' rest).2 := by
  by_cases hcomment : ∃ more, rest = '/' :: more
  · obtain ⟨more, rfl⟩ := hcomment
    rw [hfirst]
    refine ⟨⟨_, rfl⟩, ?_, ?_⟩
    · intro hmem
      have hline : '\n' ∈ more.takeWhile (· ≠ '\n') := by simpa using hmem
      simpa using List.mem_takeWhile_imp hline
    · have hends := endsRun_dropWhile (· ≠ '\n') more
      cases hrest : more.dropWhile (· ≠ '\n') with
      | nil => exact Or.inl hrest
      | cons d after =>
        rw [hrest] at hends
        have hd : d = '\n' := by simpa using hends d rfl
        exact Or.inr (by rw [firstSlash, hrest, hd]; rfl)
  · have hne : ∀ more, rest ≠ '/' :: more := fun more heq => hcomment ⟨more, heq⟩
    rw [firstSlash_of_ne hne] at hfirst
    refine fits_of_alone hfirst .slash (Or.inl rfl) ?_
    rintro ⟨more, heq⟩
    exact hne more (List.cons.inj heq).2.symm

/-- A run of characters of a kind that starts a text is no longer than the run of the text. -/
theorem length_le_takeWhile {p : Char → Bool} {cs ds : List Char} (h : ∀ c ∈ cs, p c = true)
    (hfront : cs <+: ds) : cs.length ≤ (ds.takeWhile p).length := by
  obtain ⟨after, rfl⟩ := hfront
  rw [List.takeWhile_append_of_pos h, List.length_append]
  exact Nat.le_add_right _ _

theorem fits_string (hfirst : first '"' rest = firstString rest) :
    (first '"' rest).1.Fits (first '"' rest).2 := by
  have hopen : '"' ∉ rest.takeWhile (· ≠ '"') := by
    intro hmem
    simpa using List.mem_takeWhile_imp hmem
  cases hclose : rest.dropWhile (· ≠ '"') with
  | nil =>
    have hrest : rest.takeWhile (· ≠ '"') = rest := by
      have h := List.takeWhile_append_dropWhile (p := (· ≠ '"')) (l := rest)
      rwa [hclose, List.append_nil] at h
    rw [hfirst, firstString, hclose]
    exact ⟨rest, rfl, hrest ▸ hopen, rfl⟩
  | cons close more =>
    have hends := endsRun_dropWhile (· ≠ '"') rest
    rw [hclose] at hends
    obtain rfl : close = '"' := by simpa using hends close rfl
    rw [firstString, hclose] at hfirst
    refine fits_of_first hfirst (.string hopen) (fun kind' text' hforms hfront => ?_)
      (not_opensComment (by decide))
    obtain ⟨⟨body, rfl, hbody⟩, -⟩ := hforms.quote rfl
    have hrun : ∀ c ∈ body, decide (c ≠ '"') = true := by
      intro c hc
      simpa using fun heq : c = '"' => hbody (heq ▸ hc)
    have hle := length_le_takeWhile hrun ((List.prefix_append body ['"']).trans hfront)
    simpa using hle

theorem fits_number (hc : c.isDigit = true) (hfirst : first c rest = firstNumber c rest) :
    (first c rest).1.Fits (first c rest).2 := by
  have hwhole : IsDigits (c :: rest.takeWhile Char.isDigit) := by
    refine ⟨List.cons_ne_nil _ _, fun d hd => ?_⟩
    rcases List.mem_cons.mp hd with rfl | hd
    · exact hc
    · exact List.mem_takeWhile_imp hd
  have hcomment : ¬ OpensComment (c :: rest) := not_opensComment (digitOnly hc).sign.1
  -- A number without a point is a run of digits; one with a point ends its first run there.
  have hdigits {text' : List Char} (h : IsDigits (c :: text')) (hfront : text' <+: rest) :
      text'.length ≤ (rest.takeWhile Char.isDigit).length :=
    length_le_takeWhile (fun d hd => h.digits d (List.mem_cons_of_mem c hd)) hfront
  have hdecimal {text' whole part : List Char} (heq : c :: text' = whole ++ '.' :: part)
      (hwhole' : IsDigits whole) (hfront : text' <+: rest) :
      text' = rest.takeWhile Char.isDigit ++ '.' :: part ∧
        '.' :: part <+: rest.dropWhile Char.isDigit := by
    obtain ⟨d, run, rfl⟩ := List.exists_cons_of_ne_nil hwhole'.nonempty
    rw [List.cons_append] at heq
    obtain ⟨rfl, rfl⟩ := List.cons.inj heq
    obtain ⟨after, rfl⟩ := hfront
    have hrun : run.takeWhile Char.isDigit = run := List.takeWhile_eq_self_iff.mpr
      fun d hd => hwhole'.digits d (List.mem_cons_of_mem c hd)
    have hstop : EndsRun Char.isDigit ('.' :: part ++ after) := by
      intro d hd
      cases hd
      decide
    obtain ⟨htake, hdrop⟩ := hstop.takeWhile_append run
    rw [hrun] at htake hdrop
    rw [List.append_assoc, htake, hdrop]
    exact ⟨rfl, List.prefix_append _ _⟩
  by_cases hpoint : HasPoint (rest.dropWhile Char.isDigit)
  · obtain ⟨d, more, hmore, hd⟩ := hpoint
    rw [firstNumber_of_point hmore hd] at hfirst
    have hpart : IsDigits (d :: more.takeWhile Char.isDigit) := by
      refine ⟨List.cons_ne_nil _ _, fun e he => ?_⟩
      rcases List.mem_cons.mp he with rfl | he
      · exact hd
      · exact List.mem_takeWhile_imp he
    refine fits_of_first hfirst (.decimal hwhole hpart) (fun kind' text' hforms hfront => ?_)
      hcomment
    rcases (hforms.digit hc).1 with h | ⟨whole, part, heq, hwhole', hpart'⟩
    · have hle := hdigits h hfront
      simp only [List.length_cons, List.length_append]
      omega
    · obtain ⟨rfl, hstarts⟩ := hdecimal heq hwhole' hfront
      rw [hmore, List.cons_prefix_cons] at hstarts
      have hle := length_le_takeWhile hpart'.digits hstarts.2
      rw [List.takeWhile_cons_of_pos hd] at hle
      simp only [List.length_cons, List.length_append] at hle ⊢
      omega
  · rw [firstNumber_of_not_point hpoint] at hfirst
    refine fits_of_first hfirst (.whole hwhole) (fun kind' text' hforms hfront => ?_) hcomment
    rcases (hforms.digit hc).1 with h | ⟨whole, part, heq, hwhole', hpart'⟩
    · exact Nat.succ_le_succ (hdigits h hfront)
    · obtain ⟨rfl, after, hstarts⟩ := hdecimal heq hwhole' hfront
      obtain ⟨d, part, rfl⟩ := List.exists_cons_of_ne_nil hpart'.nonempty
      exact absurd ⟨d, part ++ after, hstarts.symm, hpart'.of_cons⟩ hpoint

theorem fits_word (hc : startsName c = true) : (first c rest).1.Fits (first c rest).2 := by
  have hfirst := first_of_startsName hc rest
  have hname : Lexeme (Kind.ofWord (c :: rest.takeWhile continuesName))
      (c :: rest.takeWhile continuesName) := by
    rcases Kind.ofWord_spelled (c :: rest.takeWhile continuesName) with hword | ⟨hkind, hspelling⟩
    · rw [hword]
      refine .name ⟨⟨c, _, rfl, hc⟩, fun d hd => ?_, hword⟩
      rcases List.mem_cons.mp hd with rfl | hd
      · exact (startsNameOnly hc).continues
      · exact List.mem_takeWhile_imp hd
    · have hlexeme := Lexeme.keyword hkind
      rwa [hspelling] at hlexeme
  refine fits_of_first hfirst hname (fun kind' text' hforms hfront => ?_)
    (not_opensComment (startsNameOnly hc).sign.1)
  exact Nat.succ_le_succ (length_le_takeWhile (hforms.word hc).1 hfront)

/-- The segment that a text starts with fits there. -/
theorem fits_first (c : Char) (rest : List Char) : (first c rest).1.Fits (first c rest).2 := by
  cases hkind : Kind.ofChar? c with
  | some kind =>
    have hfirst : first c rest = (lexeme kind [c], rest) := by simp only [first, hkind]
    have hc : Kind.ofJoinable? c = none ∧ c ≠ '/' := by
      unfold Kind.ofChar? at hkind
      split at hkind <;> cases hkind <;> decide
    exact fits_of_alone hfirst (.char hkind) (Or.inl hc.1) (not_opensComment hc.2)
  | none =>
    cases hjoinable : Kind.ofJoinable? c with
    | some kinds =>
      have hc : c ≠ '/' := by
        rintro rfl
        cases hjoinable
      exact fits_operator hjoinable (by simp only [first, hkind, hjoinable]) hc
    | none =>
      by_cases hslash : c = '/'
      · subst hslash
        exact fits_slash rfl
      by_cases hquote : c = '"'
      · subst hquote
        exact fits_string rfl
      cases hblank : Text.isBlank c with
      | true =>
        have hfirst : first c rest = (blank c, rest) := by
          simp [first, hkind, hjoinable, hslash, hquote, hblank]
        rw [hfirst]
        exact hblank
      | false =>
        cases hdigit : c.isDigit with
        | true =>
          exact fits_number hdigit (by
            simp [first, hkind, hjoinable, hslash, hquote, hblank, hdigit])
        | false =>
          cases hstarts : startsName c with
          | true => exact fits_word hstarts
          | false =>
            have hfirst : first c rest = (stray c, rest) := by
              simp [first, hkind, hjoinable, hslash, hquote, hblank, hdigit, hstarts]
            rw [hfirst]
            refine ⟨fun kind text hlexeme hfront => ?_, hblank, hquote⟩
            obtain ⟨d, text, rfl, hforms⟩ := hlexeme.forms
            obtain ⟨rfl, -⟩ := List.cons_prefix_cons.mp hfront
            cases hforms.sign hstarts hdigit hquote with
            | char h => rw [hkind] at h; cases h
            | alone h | joined h => rw [hjoinable] at h; cases h
            | slash => exact hslash rfl

end First

section Unique

variable {s s' : Segment} {c : Char} {rest rest' more : List Char}

/-- Only white space fits where white space is. -/
theorem Fits.eq_blank (h : s.Fits rest) (htext : s.text ++ rest = c :: more)
    (hc : Text.isBlank c = true) : s = blank c := by
  cases s with
  | lexeme kind text =>
    obtain ⟨d, text, rfl, hforms⟩ := h.1.lexeme.forms
    obtain ⟨rfl, -⟩ := List.cons.inj htext
    exact absurd hc (by simp [hforms.blank])
  | blank d => exact congrArg blank (List.cons.inj htext).1
  | comment text =>
    obtain ⟨⟨body, rfl⟩, -⟩ := h
    obtain ⟨rfl, -⟩ := List.cons.inj htext
    exact absurd hc (by decide)
  | stray d =>
    obtain ⟨rfl, -⟩ := List.cons.inj htext
    exact absurd hc (by simp [h.2.1])
  | unclosed text =>
    obtain ⟨body, rfl, -⟩ := h
    obtain ⟨rfl, -⟩ := List.cons.inj htext
    exact absurd hc (by decide)

/-- Only a comment fits where two slashes are. -/
theorem Fits.eq_comment (h : s.Fits rest) (hopens : OpensComment (s.text ++ rest)) :
    ∃ text, s = comment text := by
  obtain ⟨more, htext⟩ := hopens
  cases s with
  | lexeme kind text => exact absurd ⟨more, htext⟩ h.2
  | blank c =>
    obtain ⟨rfl, -⟩ := List.cons.inj htext
    exact absurd (show Text.isBlank '/' = true from h) (by decide)
  | comment text => exact ⟨text, rfl⟩
  | stray c =>
    obtain ⟨rfl, -⟩ := List.cons.inj htext
    exact absurd ⟨rest, rfl⟩ (h.1 .slash ['/'] (.sign (by decide)))
  | unclosed text =>
    obtain ⟨body, rfl, -⟩ := h
    cases (List.cons.inj htext).1

/-- Only an unclosed text fits where a quote without another one behind it is. -/
theorem Fits.eq_unclosed (h : s.Fits rest) (htext : s.text ++ rest = '"' :: more)
    (hmore : '"' ∉ more) : s = unclosed ('"' :: more) := by
  cases s with
  | lexeme kind text =>
    obtain ⟨d, text, rfl, hforms⟩ := h.1.lexeme.forms
    obtain ⟨rfl, rfl⟩ := List.cons.inj htext
    obtain ⟨⟨body, rfl, -⟩, -⟩ := hforms.quote rfl
    exact absurd (by simp) hmore
  | blank c =>
    obtain ⟨rfl, -⟩ := List.cons.inj htext
    exact absurd (show Text.isBlank '"' = true from h) (by decide)
  | comment text =>
    obtain ⟨⟨body, rfl⟩, -⟩ := h
    cases (List.cons.inj htext).1
  | stray c => exact absurd (List.cons.inj htext).1 h.2.2
  | unclosed text =>
    obtain ⟨body, rfl, -, rfl⟩ := h
    rw [List.append_nil] at htext
    exact congrArg unclosed htext

/-- Only a lexeme fits where a lexeme does. -/
theorem Fits.eq_lexeme {kind : Kind} {text : List Char} (h : s.Fits rest)
    (h' : (lexeme kind text).Fits rest') (htext : s.text ++ rest = text ++ rest') :
    ∃ kind' text', s = lexeme kind' text' := by
  obtain ⟨c, more, rfl, hforms⟩ := h'.1.lexeme.forms
  cases s with
  | lexeme kind' text' => exact ⟨kind', text', rfl⟩
  | blank d =>
    obtain ⟨rfl, -⟩ := List.cons.inj htext
    exact absurd h (by simp [Fits, hforms.blank])
  | comment text' => exact absurd (htext ▸ h.1.trans (List.prefix_append text' rest)) h'.2
  | stray d =>
    have hfront := h'.1.starts
    rw [← htext] at hfront
    exact absurd hfront (h.1 kind _ h'.1.lexeme)
  | unclosed text' =>
    obtain ⟨body, rfl, hbody, rfl⟩ := h
    have hwhole : (lexeme kind (c :: more)).text ++ rest' = '"' :: body := by
      rw [text, ← htext, text, List.append_nil]
    cases h'.eq_unclosed hwhole hbody

/-- A comment takes its line. -/
theorem Fits.line_eq {text : List Char} (h : (comment text).Fits rest) :
    (text ++ rest).takeWhile (· ≠ '\n') = text := by
  obtain ⟨-, hline, hrest⟩ := h
  have hrun : ∀ c ∈ text, decide (c ≠ '\n') = true := by
    intro c hc
    simpa using fun heq : c = '\n' => hline (heq ▸ hc)
  have hstop : rest.takeWhile (· ≠ '\n') = [] := by
    cases rest with
    | nil => rfl
    | cons d after =>
      obtain rfl : d = '\n' := by simpa using hrest
      rfl
  rw [List.takeWhile_append_of_pos hrun, hstop, List.append_nil]

/-- At a place of a source one segment fits and no other. -/
theorem Fits.unique (h : s.Fits rest) (h' : s'.Fits rest')
    (htext : s.text ++ rest = s'.text ++ rest') : s = s' := by
  cases s with
  | lexeme kind text =>
    obtain ⟨kind', text', rfl⟩ := h'.eq_lexeme h htext.symm
    have hstarts' : text' <+: text ++ rest := ⟨rest', htext.symm⟩
    have hstarts : text <+: text' ++ rest' := ⟨rest, htext⟩
    have hlength : text.length = text'.length :=
      le_antisymm (h'.1.longest kind text h.1.lexeme hstarts)
        (h.1.longest kind' text' h'.1.lexeme hstarts')
    obtain rfl : text = text' := (List.append_inj htext hlength).1
    rw [h.1.lexeme.kind_eq h'.1.lexeme]
  | blank c => exact (h'.eq_blank htext.symm h).symm
  | comment text =>
    have hopens : OpensComment (s'.text ++ rest') :=
      htext ▸ h.1.trans (List.prefix_append text rest)
    obtain ⟨text', rfl⟩ := h'.eq_comment hopens
    have heq := congrArg (List.takeWhile (· ≠ '\n')) htext
    exact congrArg comment (h.line_eq.symm.trans (heq.trans h'.line_eq))
  | stray c =>
    cases s' with
    | lexeme kind' text' =>
      have hstarts : text' <+: c :: rest := ⟨rest', htext.symm⟩
      exact absurd hstarts (h.1 kind' text' h'.1.lexeme)
    | blank d => exact h.eq_blank htext h'
    | comment text' =>
      obtain ⟨text, hcomment⟩ := h.eq_comment (htext ▸ h'.1.trans (List.prefix_append text' rest'))
      cases hcomment
    | stray d => exact congrArg stray (List.cons.inj htext).1
    | unclosed text' =>
      obtain ⟨body, rfl, -⟩ := h'
      exact absurd (List.cons.inj htext).1 h.2.2
  | unclosed text =>
    obtain ⟨body, rfl, hbody, rfl⟩ := h
    rw [text, List.append_nil] at htext
    exact (h'.eq_unclosed htext.symm hbody).symm

end Unique

end Segment

end LoxLang

import LoxLang.Proofs.Token.Names
import LoxLang.Text.Lines
import Mathlib.Data.List.Forall2
import Mathlib.Data.List.TakeWhile

/-!
# Names in another spelling

A name of a source may be spelled anew in place: the text with another name there is divided into
the same segments but for that one.  A segment in front of a name asks at most two characters behind
it, and cannot tell the first characters of two names apart.

**Returns.** A carriage return and a line feed that are joined before a source is scanned belong to
no name.  So what is spelled anew in the joined text can be spelled anew in the source.

**Results.**
* `Segment.split_respelled`: the segments of a text with names in another spelling.
* `Scan.exists_respelled`: any names among the tokens of a source can be spelled anew.
-/

namespace LoxLang

section Defs

/-- Whether a text is a name and no keyword. -/
structure IsName (cs : List Char) : Prop where
  starts : ∃ c rest, cs = c :: rest ∧ startsName c = true
  continues : ∀ c ∈ cs, continuesName c = true
  word : Kind.ofWord cs = .identifier

/-- Whether a token is another one, or a name that is spelled anew. -/
def Token.Respelled (new : String) (t t' : Token) : Prop :=
  t' = t ∨ t.kind = .identifier ∧ t' = { t with lexeme := new }

/-- Whether a segment is another one, or a name that is spelled anew. -/
def Segment.Respelled (new : List Char) (s s' : Segment) : Prop :=
  s' = s ∨ ∃ word, s = .lexeme .identifier word ∧ s' = .lexeme .identifier new

/-- Whether a text is another one in which some names are spelled anew. -/
inductive Text.Respelled (new : List Char) : List Char → List Char → Prop
  | nil : Respelled new [] []
  | char (c : Char) {cs ds : List Char} : Respelled new cs ds → Respelled new (c :: cs) (c :: ds)
  | name {word cs ds : List Char} :
    IsName word → Respelled new cs ds → Respelled new (word ++ cs) (new ++ ds)

/-- Whether texts are the same up to a place where names start in both. -/
inductive Text.Resembles : List Char → List Char → Prop
  | nil : Resembles [] []
  | char (c : Char) {cs ds : List Char} : Resembles cs ds → Resembles (c :: cs) (c :: ds)
  | name {c d : Char} (cs ds : List Char) :
    startsName c = true → startsName d = true → Resembles (c :: cs) (d :: ds)

end Defs

section Characters

variable {c : Char}

theorem toNat_lt_of_startsName (h : startsName c = true) : c.toNat < 128 := by
  have hle {d : Char} (h : c.val ≤ d.val) : c.toNat ≤ d.toNat := UInt32.le_iff_toNat_le.mp h
  rcases Bool.or_eq_true_iff.mp h with h | h
  · rw [of_decide_eq_true h]
    decide
  rcases Bool.or_eq_true_iff.mp h with h | h
  · have hupper : 'A'.val ≤ c.val ∧ c.val ≤ 'Z'.val := of_decide_eq_true h
    exact Nat.lt_of_le_of_lt (hle hupper.2) (by decide)
  · have hlower : c.val ≤ 'z'.val := of_decide_eq_true (Bool.and_eq_true_iff.mp h).2
    exact Nat.lt_of_le_of_lt (hle hlower) (by decide)

/-- What a character is that starts a name, and what it is not. -/
structure StartsNameOnly (c : Char) : Prop where
  kind : Kind.ofChar? c = none
  joinable : Kind.ofJoinable? c = none
  sign : c ≠ '/' ∧ c ≠ '"' ∧ c ≠ '=' ∧ c ≠ '.' ∧ c ≠ '\n' ∧ c ≠ '\r'
  blank : Text.isBlank c = false
  digit : c.isDigit = false
  continues : continuesName c = true

theorem startsNameOnly (h : startsName c = true) : StartsNameOnly c := by
  have key : ∀ n : Fin 128, startsName (Char.ofNat n) = true →
      (Kind.ofChar? (Char.ofNat n) = none ∧ Kind.ofJoinable? (Char.ofNat n) = none) ∧
        (Char.ofNat n ≠ '/' ∧ Char.ofNat n ≠ '"' ∧ Char.ofNat n ≠ '=' ∧ Char.ofNat n ≠ '.' ∧
          Char.ofNat n ≠ '\n' ∧ Char.ofNat n ≠ '\r') ∧
        Text.isBlank (Char.ofNat n) = false ∧ (Char.ofNat n).isDigit = false ∧
          continuesName (Char.ofNat n) = true := by decide
  have hc := key ⟨c.toNat, toNat_lt_of_startsName h⟩
  rw [Char.ofNat_toNat] at hc
  obtain ⟨⟨hkind, hjoinable⟩, hsign, hblank, hdigit, hcontinues⟩ := hc h
  exact ⟨hkind, hjoinable, hsign, hblank, hdigit, hcontinues⟩

/-- What starts a name starts nothing else. -/
theorem Segment.first_of_startsName (h : startsName c = true) (rest : List Char) :
    Segment.first c rest = Segment.firstWord c rest := by
  have honly := startsNameOnly h
  unfold Segment.first
  simp [honly.kind, honly.joinable, honly.sign, honly.blank, honly.digit, h]

end Characters

section Runs

/-- Whether a run of characters of a kind ends in front of a text. -/
def EndsRun (p : Char → Bool) (cs : List Char) : Prop := ∀ c ∈ cs.head?, p c = false

theorem endsRun_dropWhile (p : Char → Bool) (cs : List Char) : EndsRun p (cs.dropWhile p) := by
  intro c hc
  induction cs with
  | nil => cases hc
  | cons d rest ih =>
    cases hd : p d with
    | true =>
      rw [List.dropWhile_cons_of_pos hd] at hc
      exact ih hc
    | false =>
      rw [List.dropWhile_cons_of_neg (by simp [hd])] at hc
      cases hc
      exact hd

theorem EndsRun.takeWhile_append {p : Char → Bool} {ds : List Char} (h : EndsRun p ds)
    (cs : List Char) :
    (cs.takeWhile p ++ ds).takeWhile p = cs.takeWhile p ∧
      (cs.takeWhile p ++ ds).dropWhile p = ds := by
  have hcs : ∀ c ∈ cs.takeWhile p, p c = true := fun c hc => List.mem_takeWhile_imp hc
  have hnone : ds.takeWhile p = [] ∧ ds.dropWhile p = ds := by
    cases ds with
    | nil => exact ⟨rfl, rfl⟩
    | cons d ds => simp [h d rfl]
  rw [List.takeWhile_append_of_pos hcs, List.dropWhile_append_of_pos hcs, hnone.1, hnone.2]
  simp

namespace Text

variable {cs ds : List Char}

theorem Resembles.refl (cs : List Char) : Resembles cs cs := by
  induction cs with
  | nil => exact .nil
  | cons c rest ih => exact .char c ih

/-- Texts that resemble each other end the same runs of characters. -/
theorem Resembles.endsRun (h : Resembles cs ds) {p : Char → Bool}
    (hp : ∀ c d, startsName c = true → startsName d = true → p c = p d) (hcs : EndsRun p cs) :
    EndsRun p ds := by
  cases h with
  | nil => exact hcs
  | char c _ => exact hcs
  | name _ _ hc hd =>
    intro d hmem
    cases hmem
    rw [← hp _ _ hc hd]
    exact hcs _ rfl

theorem Resembles.of_cons {d : Char} (h : Resembles cs (d :: ds)) (hd : startsName d = false) :
    ∃ rest, cs = d :: rest ∧ Resembles rest ds := by
  cases h with
  | char _ h => exact ⟨_, rfl, h⟩
  | name _ _ _ hname =>
    rw [hd] at hname
    cases hname

theorem Resembles.append (h : Resembles cs ds) (front : List Char) :
    Resembles (front ++ cs) (front ++ ds) := by
  induction front with
  | nil => exact h
  | cons c rest ih => exact .char c ih

/-- The first characters of names are of one kind, unless the kind tells letters apart. -/
theorem constant_continuesName (c d : Char) (hc : startsName c = true) (hd : startsName d = true) :
    continuesName c = continuesName d := by
  rw [(startsNameOnly hc).continues, (startsNameOnly hd).continues]

theorem constant_isDigit (c d : Char) (hc : startsName c = true) (hd : startsName d = true) :
    c.isDigit = d.isDigit := by
  rw [(startsNameOnly hc).digit, (startsNameOnly hd).digit]

end Text

end Runs

namespace Segment

open Text

section First

variable {c : Char} {rest after : List Char}

theorem firstOperator_of_ne {alone joined : Kind} (h : ∀ more, rest ≠ '=' :: more) :
    firstOperator c alone joined rest = (lexeme alone [c], rest) := by
  unfold firstOperator
  split
  · exact absurd rfl (h _)
  · rfl

theorem firstOperator_resembling (alone joined : Kind)
    (h : Resembles (firstOperator c alone joined rest).2 after) :
    ∃ body, (firstOperator c alone joined rest).1.text = c :: body ∧
      firstOperator c alone joined (body ++ after) =
        ((firstOperator c alone joined rest).1, after) := by
  by_cases hjoined : ∃ more, rest = '=' :: more
  · obtain ⟨more, rfl⟩ := hjoined
    exact ⟨['='], rfl, rfl⟩
  · have hne : ∀ more, rest ≠ '=' :: more := fun more heq => hjoined ⟨more, heq⟩
    rw [firstOperator_of_ne hne] at h ⊢
    refine ⟨[], rfl, firstOperator_of_ne ?_⟩
    rintro more rfl
    obtain ⟨more', heq, -⟩ := h.of_cons (by decide)
    exact hne more' heq

theorem firstSlash_of_ne (h : ∀ more, rest ≠ '/' :: more) :
    firstSlash rest = (lexeme .slash ['/'], rest) := by
  unfold firstSlash
  split
  · exact absurd rfl (h _)
  · rfl

theorem firstSlash_resembling (h : Resembles (firstSlash rest).2 after) :
    ∃ body, (firstSlash rest).1.text = '/' :: body ∧
      firstSlash (body ++ after) = ((firstSlash rest).1, after) := by
  by_cases hcomment : ∃ more, rest = '/' :: more
  · obtain ⟨more, rfl⟩ := hcomment
    have hends : EndsRun (· ≠ '\n') after := h.endsRun (fun c d hc hd => by
      simp [(startsNameOnly hc).sign, (startsNameOnly hd).sign]) (endsRun_dropWhile _ more)
    obtain ⟨htake, hdrop⟩ := hends.takeWhile_append more
    exact ⟨_, rfl, by simp only [firstSlash, List.cons_append, htake, hdrop]⟩
  · have hne : ∀ more, rest ≠ '/' :: more := fun more heq => hcomment ⟨more, heq⟩
    rw [firstSlash_of_ne hne] at h ⊢
    refine ⟨[], rfl, firstSlash_of_ne ?_⟩
    rintro more rfl
    obtain ⟨more', heq, -⟩ := h.of_cons (by decide)
    exact hne more' heq

theorem firstString_resembling (h : Resembles (firstString rest).2 after) :
    ∃ body, (firstString rest).1.text = '"' :: body ∧
      firstString (body ++ after) = ((firstString rest).1, after) := by
  unfold firstString at h
  cases hclose : rest.dropWhile (· ≠ '"') with
  | nil =>
    rw [hclose] at h
    cases h
    have hfirst : firstString rest = (unclosed ('"' :: rest), []) := by rw [firstString, hclose]
    exact ⟨rest, by rw [hfirst]; rfl, by rw [List.append_nil, hfirst]⟩
  | cons close more =>
    have hends : EndsRun (· ≠ '"') (close :: after) := by
      have hends := endsRun_dropWhile (· ≠ '"') rest
      rw [hclose] at hends
      exact hends
    obtain ⟨htake, hdrop⟩ := hends.takeWhile_append rest
    have hfirst : firstString rest =
        (lexeme .string ('"' :: rest.takeWhile (· ≠ '"') ++ [close]), more) := by
      rw [firstString, hclose]
    refine ⟨rest.takeWhile (· ≠ '"') ++ [close], by rw [hfirst]; rfl, ?_⟩
    rw [List.append_assoc, List.singleton_append, firstString, htake, hdrop, hfirst]

theorem firstWord_resembling (h : Resembles (firstWord c rest).2 after) :
    ∃ body, (firstWord c rest).1.text = c :: body ∧
      firstWord c (body ++ after) = ((firstWord c rest).1, after) := by
  have hends : EndsRun continuesName after :=
    h.endsRun constant_continuesName (endsRun_dropWhile _ rest)
  obtain ⟨htake, hdrop⟩ := hends.takeWhile_append rest
  exact ⟨_, rfl, by simp only [firstWord, htake, hdrop]⟩

/-- Whether a number goes on behind its digits with a point and further digits. -/
def HasPoint (cs : List Char) : Prop := ∃ d more, cs = '.' :: d :: more ∧ d.isDigit = true

theorem firstNumber_of_not_point (h : ¬ HasPoint (rest.dropWhile Char.isDigit)) :
    firstNumber c rest =
      (lexeme .number (c :: rest.takeWhile Char.isDigit), rest.dropWhile Char.isDigit) := by
  unfold firstNumber
  split
  · rename_i d more heq
    cases hd : d.isDigit with
    | true => exact absurd ⟨d, more, heq, hd⟩ h
    | false => simp [heq]
  · rfl

theorem firstNumber_of_point {d : Char} {more : List Char}
    (hpoint : rest.dropWhile Char.isDigit = '.' :: d :: more) (hd : d.isDigit = true) :
    firstNumber c rest =
      (lexeme .number (c :: rest.takeWhile Char.isDigit ++ '.' :: d :: more.takeWhile Char.isDigit),
        more.dropWhile Char.isDigit) := by
  unfold firstNumber
  rw [hpoint]
  simp [hd]

theorem firstNumber_resembling (h : Resembles (firstNumber c rest).2 after) :
    ∃ body, (firstNumber c rest).1.text = c :: body ∧
      firstNumber c (body ++ after) = ((firstNumber c rest).1, after) := by
  by_cases hpoint : HasPoint (rest.dropWhile Char.isDigit)
  · obtain ⟨d, more, hmore, hd⟩ := hpoint
    rw [firstNumber_of_point hmore hd] at h ⊢
    have hends : EndsRun Char.isDigit after :=
      h.endsRun constant_isDigit (endsRun_dropWhile _ more)
    obtain ⟨htake, hdrop⟩ := hends.takeWhile_append more
    have hstop : EndsRun Char.isDigit ('.' :: d :: (more.takeWhile Char.isDigit ++ after)) := by
      intro e he
      cases he
      decide
    obtain ⟨htake', hdrop'⟩ := hstop.takeWhile_append rest
    refine ⟨rest.takeWhile Char.isDigit ++ '.' :: d :: more.takeWhile Char.isDigit, rfl, ?_⟩
    rw [List.append_assoc, List.cons_append, List.cons_append, firstNumber_of_point hdrop' hd,
      htake', htake, hdrop]
  · rw [firstNumber_of_not_point hpoint] at h ⊢
    have hends : EndsRun Char.isDigit after :=
      h.endsRun constant_isDigit (endsRun_dropWhile _ rest)
    obtain ⟨htake, hdrop⟩ := hends.takeWhile_append rest
    refine ⟨rest.takeWhile Char.isDigit, rfl, ?_⟩
    have hnone : ¬ HasPoint ((rest.takeWhile Char.isDigit ++ after).dropWhile Char.isDigit) := by
      rw [hdrop]
      rintro ⟨d, more, rfl, hd⟩
      obtain ⟨tail, htail, hresembles⟩ := h.of_cons (by decide)
      have hstarts : startsName d = false := by
        cases hname : startsName d with
        | false => rfl
        | true => rw [(startsNameOnly hname).digit] at hd; cases hd
      obtain ⟨more', rfl, -⟩ := hresembles.of_cons hstarts
      exact hpoint ⟨d, more', htail, hd⟩
    rw [firstNumber_of_not_point hnone, htake, hdrop]

/-- The first segment of a text asks the rest for no more than what resembles it. -/
theorem first_resembling (h : Resembles (first c rest).2 after) :
    ∃ body, (first c rest).1.text = c :: body ∧
      first c (body ++ after) = ((first c rest).1, after) := by
  cases hkind : Kind.ofChar? c with
  | some kind =>
    have hfirst (cs : List Char) : first c cs = (lexeme kind [c], cs) := by
      simp only [first, hkind]
    exact ⟨[], by rw [hfirst]; rfl, by rw [hfirst, hfirst]; rfl⟩
  | none =>
    cases hjoinable : Kind.ofJoinable? c with
    | some kinds =>
      obtain ⟨alone, joined⟩ := kinds
      have hfirst (cs : List Char) : first c cs = firstOperator c alone joined cs := by
        simp only [first, hkind, hjoinable]
      simp only [hfirst] at h ⊢
      exact firstOperator_resembling alone joined h
    | none =>
      by_cases hslash : c = '/'
      · subst hslash
        exact firstSlash_resembling h
      · by_cases hquote : c = '"'
        · subst hquote
          exact firstString_resembling h
        · cases hblank : Text.isBlank c with
          | true =>
            have hfirst (cs : List Char) : first c cs = (blank c, cs) := by
              simp [first, hkind, hjoinable, hslash, hquote, hblank]
            exact ⟨[], by rw [hfirst]; rfl, by rw [hfirst, hfirst]; rfl⟩
          | false =>
            cases hdigit : c.isDigit with
            | true =>
              have hfirst (cs : List Char) : first c cs = firstNumber c cs := by
                simp [first, hkind, hjoinable, hslash, hquote, hblank, hdigit]
              simp only [hfirst] at h ⊢
              exact firstNumber_resembling h
            | false =>
              cases hstarts : startsName c with
              | true =>
                simp only [first_of_startsName hstarts] at h ⊢
                exact firstWord_resembling h
              | false =>
                have hfirst (cs : List Char) : first c cs = (stray c, cs) := by
                  simp [first, hkind, hjoinable, hslash, hquote, hblank, hdigit, hstarts]
                exact ⟨[], by rw [hfirst]; rfl, by rw [hfirst, hfirst]; rfl⟩

theorem startsName_of_first {word : List Char} (h : (first c rest).1 = lexeme .identifier word) :
    startsName c = true := by
  unfold first at h
  split at h
  · rename_i kind _ hkind
    unfold Kind.ofChar? at hkind
    split at hkind <;> cases hkind <;> cases h
  · rename_i alone joined _ hkind
    unfold Kind.ofJoinable? at hkind
    unfold firstOperator at h
    split at h <;> split at hkind <;> cases hkind <;> cases h
  · split at h
    · unfold firstSlash at h
      split at h <;> cases h
    · split at h
      · unfold firstString at h
        split at h <;> cases h
      · split at h
        · cases h
        · split at h
          · by_cases hpoint : HasPoint (rest.dropWhile Char.isDigit)
            · obtain ⟨d, more, hmore, hd⟩ := hpoint
              rw [firstNumber_of_point hmore hd] at h
              cases h
            · rw [firstNumber_of_not_point hpoint] at h
              cases h
          · split at h
            · assumption
            · cases h

/-- A name that a text starts with goes on as long as it may. -/
theorem isName_of_first {word : List Char} (h : (first c rest).1 = lexeme .identifier word) :
    IsName word ∧ EndsRun continuesName (first c rest).2 := by
  have hstarts := startsName_of_first h
  rw [first_of_startsName hstarts] at h ⊢
  obtain ⟨hword, rfl⟩ := Segment.lexeme.inj h
  refine ⟨⟨⟨c, _, rfl, hstarts⟩, fun d hd => ?_, hword⟩, endsRun_dropWhile _ rest⟩
  rcases List.mem_cons.mp hd with rfl | hd
  · exact (startsNameOnly hstarts).continues
  · exact List.mem_takeWhile_imp hd

/-- A name in front of a text that does not go on with it is the first segment. -/
theorem first_of_isName {word : List Char} (h : IsName word)
    (hafter : EndsRun continuesName after) :
    ∃ d body, word = d :: body ∧ startsName d = true ∧
      first d (body ++ after) = (lexeme .identifier word, after) := by
  obtain ⟨d, body, rfl, hd⟩ := h.starts
  have hbody : body.takeWhile continuesName = body :=
    List.takeWhile_eq_self_iff.mpr fun e he => h.continues e (List.mem_cons_of_mem d he)
  obtain ⟨htake, hdrop⟩ := hafter.takeWhile_append body
  rw [hbody] at htake hdrop
  refine ⟨d, body, rfl, hd, ?_⟩
  rw [first_of_startsName hd, firstWord, htake, hdrop, h.word]

end First

theorem isName_of_mem_split {word : List Char} (cs : List Char)
    (h : lexeme .identifier word ∈ split cs) : IsName word := by
  fun_induction split cs with
  | case1 => cases h
  | case2 c rest ih =>
    rcases List.mem_cons.mp h with h | h
    · exact (isName_of_first h.symm).1
    · exact ih h

/-- A text in which names are spelled anew is divided in the same way. -/
theorem split_respelled {new : List Char} (hnew : IsName new) (cs : List Char)
    {segments : List Segment} (h : List.Forall₂ (Respelled new) (split cs) segments) :
    split (segments.flatMap text) = segments ∧ Resembles cs (segments.flatMap text) := by
  fun_induction split cs generalizing segments with
  | case1 =>
    cases h
    exact ⟨by rw [List.flatMap_nil, split], .nil⟩
  | case2 c rest ih =>
    cases h with
    | @cons _ s _ more hs hmore =>
      obtain ⟨hsplit, hresembles⟩ := ih hmore
      rw [List.flatMap_cons]
      rcases hs with rfl | ⟨word, hword, rfl⟩
      · obtain ⟨body, htext, hfirst⟩ := first_resembling hresembles
        refine ⟨?_, ?_⟩
        · rw [htext, List.cons_append, split, hfirst, hsplit]
        · rw [← text_append_first c rest]
          exact hresembles.append _
      · have hends := hresembles.endsRun constant_continuesName (isName_of_first hword).2
        obtain ⟨d, body, rfl, hd, hfirst⟩ := first_of_isName hnew hends
        refine ⟨?_, .name _ _ (startsName_of_first hword) hd⟩
        rw [text, List.cons_append, split, hfirst, hsplit]

end Segment

theorem IsName.ne {word : List Char} (h : IsName word) {c : Char} (hc : c ∈ word) :
    c ≠ '\n' ∧ c ≠ '\r' := by
  have hcontinues := h.continues c hc
  constructor <;> rintro rfl <;> exact absurd hcontinues (by decide)

namespace Text

variable {new : List Char}

theorem Respelled.append (front : List Char) {cs ds : List Char} (h : Respelled new cs ds) :
    Respelled new (front ++ cs) (front ++ ds) := by
  induction front with
  | nil => exact h
  | cons c rest ih => exact .char c ih

/-- Segments that are spelled anew one by one. -/
theorem respelled_flatMap {segments segments' : List Segment}
    (hnames : ∀ word, .lexeme .identifier word ∈ segments → IsName word)
    (h : List.Forall₂ (Segment.Respelled new) segments segments') :
    Respelled new (segments.flatMap Segment.text) (segments'.flatMap Segment.text) := by
  induction h with
  | nil => exact .nil
  | @cons s s' more more' hs _ ih =>
    have hmore := ih fun word hword => hnames word (List.mem_cons_of_mem s hword)
    rw [List.flatMap_cons, List.flatMap_cons]
    rcases hs with rfl | ⟨word, rfl, rfl⟩
    · exact hmore.append _
    · exact .name (hnames word List.mem_cons_self) hmore

/-- Characters other than returns stay where they are. -/
theorem joinReturns_append {word : List Char} (h : ∀ c ∈ word, c ≠ '\r') (cs : List Char) :
    joinReturns (word ++ cs) = word ++ joinReturns cs := by
  induction word with
  | nil => rfl
  | cons c rest ih =>
    obtain ⟨hc, hrest⟩ := List.forall_mem_cons.mp h
    rw [List.cons_append, joinReturns, ih hrest, List.cons_append]
    rintro more rfl
    exact absurd rfl hc

/-- What starts a joined text starts the text, unless it is a line feed. -/
theorem of_joinReturns_cons {c : Char} {cs ds : List Char} (h : joinReturns cs = c :: ds)
    (hc : c ≠ '\n') : ∃ rest, cs = c :: rest ∧ joinReturns rest = ds ∧
      ∀ more, c = '\r' → rest ≠ '\n' :: more := by
  unfold joinReturns at h
  split at h
  · cases h
  · cases h
    exact absurd rfl hc
  · rename_i d rest hpair
    cases h
    exact ⟨rest, rfl, rfl, fun more hreturn heq => hpair more hreturn heq⟩

theorem of_joinReturns_append {word cs ds : List Char} (hword : IsName word)
    (h : joinReturns cs = word ++ ds) : ∃ rest, cs = word ++ rest ∧ joinReturns rest = ds := by
  have hne : ∀ c ∈ word, c ≠ '\n' := fun c hc => (hword.ne hc).1
  clear hword
  induction word generalizing cs with
  | nil => exact ⟨cs, rfl, h⟩
  | cons c body ih =>
    obtain ⟨hc, hbody⟩ := List.forall_mem_cons.mp hne
    obtain ⟨rest, rfl, hrest, -⟩ := of_joinReturns_cons h hc
    obtain ⟨rest', rfl, hrest'⟩ := ih hrest hbody
    exact ⟨rest', rfl, hrest'⟩

theorem Respelled.of_newline (hnew : IsName new) {cs ds : List Char}
    (h : Respelled new cs ('\n' :: ds)) : ∃ rest, cs = '\n' :: rest := by
  generalize hds : '\n' :: ds = ds' at h
  cases h with
  | nil => cases hds
  | char c _ =>
    obtain ⟨rfl, -⟩ := List.cons.inj hds
    exact ⟨_, rfl⟩
  | name _ _ =>
    obtain ⟨c, rest, rfl, hc⟩ := hnew.starts
    obtain ⟨rfl, -⟩ := List.cons.inj hds
    exact absurd hc (by decide)

/-- Names that are spelled anew in a joined text can be spelled anew in the text. -/
theorem Respelled.of_joinReturns (hnew : IsName new) {joined ds : List Char}
    (h : Respelled new joined ds) {cs : List Char} (hcs : joinReturns cs = joined) :
    ∃ cs', Respelled new cs cs' ∧ joinReturns cs' = ds := by
  induction h generalizing cs with
  | nil =>
    unfold joinReturns at hcs
    split at hcs
    · exact ⟨[], .nil, rfl⟩
    · cases hcs
    · cases hcs
  | char c _ ih =>
    unfold joinReturns at hcs
    split at hcs
    · cases hcs
    · obtain ⟨rfl, hrest⟩ := List.cons.inj hcs
      obtain ⟨rest', hrespelled, hrest'⟩ := ih hrest
      exact ⟨'\r' :: '\n' :: rest', .char _ (.char _ hrespelled), by rw [joinReturns, hrest']⟩
    · rename_i hpair
      obtain ⟨rfl, hrest⟩ := List.cons.inj hcs
      obtain ⟨rest', hrespelled, hrest'⟩ := ih hrest
      refine ⟨_, .char _ hrespelled, ?_⟩
      rw [joinReturns, hrest']
      rintro more hreturn rfl
      obtain ⟨more', rfl⟩ := hrespelled.of_newline hnew
      exact hpair more' hreturn rfl
  | name hword _ ih =>
    obtain ⟨rest, rfl, hrest⟩ := of_joinReturns_append hword hcs
    obtain ⟨rest', hrespelled, hrest'⟩ := ih hrest
    refine ⟨new ++ rest', .name hword hrespelled, ?_⟩
    rw [joinReturns_append fun c hc => (hnew.ne hc).2, hrest']

end Text

namespace Scan

theorem newlines_of_isName {word : List Char} (h : IsName word) : newlines word = 0 :=
  List.count_eq_zero.mpr fun hmem => (h.ne hmem).1 rfl

/-- Segments for tokens that are spelled anew. -/
theorem exists_segments {new : String} (hnew : IsName new.toList) {segments : List Segment}
    (hnames : ∀ word, .lexeme .identifier word ∈ segments → IsName word) {line : Int}
    {ts : List Token}
    (h : List.Forall₂ (Token.Respelled new) (ofSegments line segments).tokens ts) :
    ∃ segments', List.Forall₂ (Segment.Respelled new.toList) segments segments' ∧
      (ofSegments line segments').tokens = ts ∧
      (ofSegments line segments').diagnostics = (ofSegments line segments).diagnostics := by
  induction segments generalizing line ts with
  | nil =>
    cases h with
    | cons ht hrest =>
      cases hrest
      rcases ht with rfl | ⟨hkind, -⟩
      · exact ⟨[], .nil, rfl, rfl⟩
      · cases hkind
  | cons segment more ih =>
    have hmore : ∀ word, .lexeme .identifier word ∈ more → IsName word :=
      fun word hword => hnames word (List.mem_cons_of_mem segment hword)
    cases segment with
    | lexeme kind text =>
      cases h with
      | cons ht hrest =>
        rcases ht with rfl | ⟨hkind, rfl⟩
        · obtain ⟨more', hmore', htokens, hquiet⟩ := ih hmore hrest
          exact ⟨.lexeme kind text :: more', .cons (Or.inl rfl) hmore',
            congrArg (List.cons _) htokens, hquiet⟩
        · obtain rfl : kind = .identifier := hkind
          have hold := hnames text List.mem_cons_self
          have hlines : newlines (Segment.lexeme .identifier new.toList).text =
              newlines (Segment.lexeme .identifier text).text := by
            rw [Segment.text, Segment.text, newlines_of_isName hnew, newlines_of_isName hold]
          obtain ⟨more', hmore', htokens, hquiet⟩ := ih hmore hrest
          refine ⟨.lexeme .identifier new.toList :: more', .cons (Or.inr ⟨text, rfl, rfl⟩) hmore',
            ?_, ?_⟩
          · simp only [ofSegments, hlines, htokens, String.ofList_toList]
            rfl
          · simp only [ofSegments, hlines, hquiet]
    | blank c =>
      obtain ⟨more', hmore', htokens, hquiet⟩ := ih hmore h
      exact ⟨.blank c :: more', .cons (Or.inl rfl) hmore', htokens, hquiet⟩
    | comment text =>
      obtain ⟨more', hmore', htokens, hquiet⟩ := ih hmore h
      exact ⟨.comment text :: more', .cons (Or.inl rfl) hmore', htokens, hquiet⟩
    | stray c =>
      obtain ⟨more', hmore', htokens, hquiet⟩ := ih hmore h
      exact ⟨.stray c :: more', .cons (Or.inl rfl) hmore', htokens,
        congrArg (List.cons _) hquiet⟩
    | unclosed text =>
      obtain ⟨more', hmore', htokens, hquiet⟩ := ih hmore h
      exact ⟨.unclosed text :: more', .cons (Or.inl rfl) hmore', htokens,
        congrArg (List.cons _) hquiet⟩

/-- Any names among the tokens of a source can be spelled anew in the source. -/
theorem exists_respelled {new : String} (hnew : IsName new.toList) (source : List Char)
    {ts : List Token}
    (h : List.Forall₂ (Token.Respelled new) (ofSource (Text.joinReturns source)).tokens ts) :
    ∃ source', Text.Respelled new.toList source source' ∧
      (ofSource (Text.joinReturns source')).tokens = ts ∧
      (ofSource (Text.joinReturns source')).diagnostics =
        (ofSource (Text.joinReturns source)).diagnostics := by
  have hnames (word : List Char)
      (hword : .lexeme .identifier word ∈ Segment.split (Text.joinReturns source)) :
      IsName word := Segment.isName_of_mem_split _ hword
  obtain ⟨segments, hsegments, htokens, hquiet⟩ := exists_segments hnew hnames h
  have hrespelled := Text.respelled_flatMap hnames hsegments
  rw [Segment.text_flatMap_split] at hrespelled
  obtain ⟨source', hsource', hjoined⟩ := hrespelled.of_joinReturns hnew rfl
  obtain ⟨hsplit, -⟩ := Segment.split_respelled hnew _ hsegments
  refine ⟨source', hsource', ?_, ?_⟩
  · rw [hjoined, ofSource, hsplit, htokens]
  · rw [hjoined, ofSource, hsplit, hquiet]
    rfl

end Scan
end LoxLang

import Mathlib.Data.List.Basic
import Mathlib.Order.Lattice

/-!
# The tokens of a shell command

`lex` takes a command apart as a POSIX shell does: into operators and words,
each byte of a word with the quoting it stands in.  It has no value where a
quotation or an escape is not closed, and where the shell might put other text
in the place of what is written (`$`, a back quote, a pattern, or a tilde at the
start of a word).

The bytes of the tokens are bytes of the command, and those without a quotation
are none that the shell takes out of words (`sound_of_lex`).  Plain bytes with a
blank behind them are one unquoted word (`advance_argument`).
-/

namespace Bright.Lib

namespace Shell

inductive Quoting where
  | bare
  | escaped
  | single
  | double
  deriving DecidableEq

/-- A byte of a word. -/
structure Mark where
  quoting : Quoting
  byte : UInt8
  deriving DecidableEq

inductive Token where
  | operator (text : List UInt8)
  | word (marks : List Mark)
  deriving DecidableEq

def bareWord (text : List UInt8) : Token := .word (text.map (Mark.mk .bare))

def quotedWord (text : List UInt8) : Token := .word (text.map (Mark.mk .double))

/-- The token that is open outside of quotations. -/
inductive Pending where
  | nothing
  | operator (text : List UInt8)
  | word (marks : List Mark)
  deriving DecidableEq

inductive State where
  | outside (pending : Pending)
  | escape (pending : Pending)
  | comment
  | single (marks : List Mark)
  | double (marks : List Mark)
  | doubleEscape (marks : List Mark)
  deriving DecidableEq

def newline : UInt8 := '\n'.toUInt8

def backslash : UInt8 := '\\'.toUInt8

def singleQuote : UInt8 := '\''.toUInt8

def doubleQuote : UInt8 := '"'.toUInt8

/-- The bytes of ASCII characters. -/
def ascii (chars : List Char) : List UInt8 := chars.map Char.toUInt8

def blanks : List UInt8 := ascii [' ', '\t']

def operatorStarts : List UInt8 :=
  ascii ['\n', ';', '&', '|', '<', '>', '(', ')']

def operators : List (List UInt8) :=
  [['\n'], [';'], ['&'], ['|'], ['<'], ['>'], ['('], [')'], ['&', '&'],
    ['|', '|'], [';', ';'], ['<', '<'], ['>', '>'], ['<', '&'], ['>', '&'],
    ['<', '>'], ['<', '<', '-'], ['>', '|']].map ascii

/-- The bytes that start an expansion, also between double quotes. -/
def substitutions : List UInt8 := ascii ['$', '\x60']

def patterns : List UInt8 := ascii ['*', '?', '[']

def isBlank (c : UInt8) : Bool := blanks.contains c

def startsOperator (c : UInt8) : Bool := operatorStarts.contains c

def isSubstitution (c : UInt8) : Bool := substitutions.contains c

def isPattern (c : UInt8) : Bool := patterns.contains c

/-- A byte behind which no token is open. -/
def startToken (c : UInt8) : Option State :=
  if isBlank c then
    some (.outside .nothing)
  else if startsOperator c then
    some (.outside (.operator [c]))
  else if c = '#'.toUInt8 then
    some .comment
  else if c = backslash then
    some (.escape .nothing)
  else if c = singleQuote then
    some (.single [])
  else if c = doubleQuote then
    some (.double [])
  else if isSubstitution c ∨ isPattern c ∨ c = '~'.toUInt8 then
    none
  else
    some (.outside (.word [⟨.bare, c⟩]))

/-- A byte behind an open word. -/
def continueWord (marks : List Mark) (c : UInt8) :
    Option (List Token × State) :=
  if isBlank c then
    some ([.word marks], .outside .nothing)
  else if startsOperator c then
    some ([.word marks], .outside (.operator [c]))
  else if c = backslash then
    some ([], .escape (.word marks))
  else if c = singleQuote then
    some ([], .single marks)
  else if c = doubleQuote then
    some ([], .double marks)
  else if isSubstitution c ∨ isPattern c then
    none
  else
    some ([], .outside (.word (marks ++ [⟨.bare, c⟩])))

/-- One byte: the tokens that it ends, and the state behind it. -/
def step : State → UInt8 → Option (List Token × State)
  | .outside .nothing, c => (startToken c).map fun next => ([], next)
  | .outside (.operator text), c =>
      if operators.contains (text ++ [c]) then
        some ([], .outside (.operator (text ++ [c])))
      else if c = backslash then
        some ([], .escape (.operator text))
      else
        (startToken c).map fun next => ([.operator text], next)
  | .outside (.word marks), c => continueWord marks c
  | .escape pending, c =>
      -- An escaped newline is taken out before the tokens are told apart.
      if c = newline then
        some ([], .outside pending)
      else
        match pending with
        | .nothing => some ([], .outside (.word [⟨.escaped, c⟩]))
        | .operator text =>
            some ([.operator text], .outside (.word [⟨.escaped, c⟩]))
        | .word marks => some ([], .outside (.word (marks ++ [⟨.escaped, c⟩])))
  | .comment, c =>
      if c = newline then
        some ([], .outside (.operator [c]))
      else
        some ([], .comment)
  | .single marks, c =>
      if c = singleQuote then
        some ([], .outside (.word marks))
      else
        some ([], .single (marks ++ [⟨.single, c⟩]))
  | .double marks, c =>
      if c = doubleQuote then
        some ([], .outside (.word marks))
      else if c = backslash then
        some ([], .doubleEscape marks)
      else if isSubstitution c then
        none
      else
        some ([], .double (marks ++ [⟨.double, c⟩]))
  | .doubleEscape marks, c =>
      if c = newline then
        some ([], .double marks)
      else if c = doubleQuote ∨ c = backslash ∨ isSubstitution c then
        some ([], .double (marks ++ [⟨.double, c⟩]))
      else
        some ([], .double (marks ++ [⟨.double, backslash⟩, ⟨.double, c⟩]))

/-- The tokens that end inside a text, and the state behind it. -/
def advance : State → List UInt8 → Option (List Token × State)
  | state, [] => some ([], state)
  | state, c :: rest =>
      match step state c with
      | none => none
      | some (emitted, next) =>
          (advance next rest).map fun (later, last) => (emitted ++ later, last)

/-- The token that the end of the text ends. -/
def finish : State → Option (List Token)
  | .outside .nothing => some []
  | .outside (.operator text) => some [.operator text]
  | .outside (.word marks) => some [.word marks]
  | .comment => some []
  | _ => none

def lex (text : List UInt8) : Option (List Token) :=
  match advance (.outside .nothing) text with
  | none => none
  | some (emitted, last) => (finish last).map (emitted ++ ·)

variable {state next middle last : State} {c : UInt8} {text rest : List UInt8}
  {emitted later tokens : List Token} {marks : List Mark}

/-! ### Texts one behind the other -/

theorem advance_cons (first : step state c = some (emitted, next))
    (second : advance next rest = some (later, last)) :
    advance state (c :: rest) = some (emitted ++ later, last) := by
  rw [advance, first]
  dsimp only
  rw [second]
  rfl

theorem exists_of_advance_cons
    (done : advance state (c :: rest) = some (tokens, last)) :
    ∃ emitted next later, step state c = some (emitted, next) ∧
      advance next rest = some (later, last) ∧ emitted ++ later = tokens := by
  rw [advance] at done
  cases first : step state c with
  | none =>
      rw [first] at done
      cases done
  | some result =>
      obtain ⟨emitted, next⟩ := result
      rw [first] at done
      obtain ⟨⟨later, ended⟩, second, same⟩ := Option.map_eq_some_iff.mp done
      injection same with sameTokens sameState
      subst sameState
      exact ⟨emitted, next, later, rfl, second, sameTokens⟩

theorem advance_append (first : advance state text = some (emitted, middle))
    (second : advance middle rest = some (later, last)) :
    advance state (text ++ rest) = some (emitted ++ later, last) := by
  induction text generalizing state emitted with
  | nil =>
      injection first with same
      injection same with noTokens sameState
      subst noTokens
      subst sameState
      exact second
  | cons c text inductionHypothesis =>
      obtain ⟨start, next, behind, stepped, advanced, rfl⟩ :=
        exists_of_advance_cons first
      rw [List.append_assoc]
      exact advance_cons stepped (inductionHypothesis advanced)

theorem exists_of_advance_append
    (done : advance state (text ++ rest) = some (tokens, last)) :
    ∃ emitted middle later, advance state text = some (emitted, middle) ∧
      advance middle rest = some (later, last) ∧ emitted ++ later = tokens := by
  induction text generalizing state tokens with
  | nil => exact ⟨[], state, tokens, rfl, done, rfl⟩
  | cons c text inductionHypothesis =>
      obtain ⟨start, next, behind, stepped, advanced, rfl⟩ :=
        exists_of_advance_cons done
      obtain ⟨emitted, middle, later, first, second, rfl⟩ :=
        inductionHypothesis advanced
      exact ⟨start ++ emitted, middle, later, advance_cons stepped first, second,
        List.append_assoc start emitted later⟩

theorem lex_eq_some_iff :
    lex text = some tokens ↔
      ∃ emitted last later, advance (.outside .nothing) text =
        some (emitted, last) ∧ finish last = some later ∧
          emitted ++ later = tokens := by
  rw [lex]
  constructor
  · intro lexed
    cases advanced : advance (.outside .nothing) text with
    | none =>
        rw [advanced] at lexed
        cases lexed
    | some result =>
        obtain ⟨emitted, last⟩ := result
        rw [advanced] at lexed
        obtain ⟨later, finished, same⟩ := Option.map_eq_some_iff.mp lexed
        exact ⟨emitted, last, later, rfl, finished, same⟩
  · rintro ⟨emitted, last, later, advanced, finished, rfl⟩
    rw [advanced]
    dsimp only
    rw [finished]
    rfl

theorem lex_eq (done : advance (.outside .nothing) text = some (emitted, last))
    (finished : finish last = some later) :
    lex text = some (emitted ++ later) :=
  lex_eq_some_iff.mpr ⟨emitted, last, later, done, finished, rfl⟩

/-- What is read before and behind a point where no token is open. -/
theorem lex_append_eq_some_iff {words : List Token}
    (before : advance (.outside .nothing) text =
      some (emitted, .outside .nothing)) :
    lex (text ++ rest) = some (emitted ++ words) ↔ lex rest = some words := by
  rw [lex_eq_some_iff, lex_eq_some_iff]
  constructor
  · rintro ⟨tokens, last, later, advanced, finished, same⟩
    obtain ⟨first, middle, behind, read, done, rfl⟩ :=
      exists_of_advance_append advanced
    rw [before] at read
    cases read
    rw [List.append_assoc] at same
    exact ⟨behind, last, later, done, finished, List.append_cancel_left same⟩
  · rintro ⟨behind, last, later, done, finished, rfl⟩
    exact ⟨emitted ++ behind, last, later, advance_append before done, finished,
      List.append_assoc emitted behind later⟩

/-! ### Bytes that stand for themselves -/

/-- The bytes that are never part of a word outside of quotations. -/
def delimiterBytes : List UInt8 :=
  blanks ++ operatorStarts ++ [backslash, singleQuote, doubleQuote] ++
    substitutions ++ patterns

/-- The bytes that no word outside of quotations begins with, besides. -/
def startBytes : List UInt8 := ascii ['#', '~']

def WordByte (c : UInt8) : Prop := c ∉ delimiterBytes

/-- A byte outside of quotations that stands for itself, wherever it is. -/
def Plain (c : UInt8) : Prop := WordByte c ∧ c ∉ startBytes

instance decidableWordByte (c : UInt8) : Decidable (WordByte c) :=
  inferInstanceAs (Decidable (¬ _))

instance decidablePlain (c : UInt8) : Decidable (Plain c) :=
  inferInstanceAs (Decidable (_ ∧ _))

theorem wordByte_iff :
    WordByte c ↔
      isBlank c = false ∧ startsOperator c = false ∧ c ≠ backslash ∧
        c ≠ singleQuote ∧ c ≠ doubleQuote ∧ isSubstitution c = false ∧
          isPattern c = false := by
  simp [WordByte, delimiterBytes, isBlank, startsOperator, isSubstitution,
    isPattern]

/-- The bytes that have a meaning of their own between double quotes. -/
def activeBytes : List UInt8 := [doubleQuote, backslash] ++ substitutions

/-- A byte between double quotes that stands for itself, wherever it is. -/
def Literal (c : UInt8) : Prop := c ∉ activeBytes

instance decidableLiteral (c : UInt8) : Decidable (Literal c) :=
  inferInstanceAs (Decidable (¬ _))

theorem literal_iff :
    Literal c ↔ c ≠ doubleQuote ∧ c ≠ backslash ∧ isSubstitution c = false := by
  simp [Literal, activeBytes, isSubstitution]

theorem startToken_plain (plain : Plain c) :
    startToken c = some (.outside (.word [⟨.bare, c⟩])) := by
  obtain ⟨blank, operator, escape, single, double, substitution, pattern⟩ :=
    wordByte_iff.mp plain.1
  have hash : c ≠ '#'.toUInt8 := by
    rintro rfl
    exact plain.2 (by decide)
  have home : c ≠ '~'.toUInt8 := by
    rintro rfl
    exact plain.2 (by decide)
  simp [startToken, blank, operator, hash, escape, single, double, substitution,
    pattern, home]

theorem continueWord_of_wordByte (wordByte : WordByte c) :
    continueWord marks c =
      some ([], .outside (.word (marks ++ [⟨.bare, c⟩]))) := by
  obtain ⟨blank, operator, escape, single, double, substitution, pattern⟩ :=
    wordByte_iff.mp wordByte
  simp [continueWord, blank, operator, escape, single, double, substitution,
    pattern]

theorem advance_word (wordBytes : ∀ c ∈ text, WordByte c) :
    advance (.outside (.word marks)) text =
      some ([], .outside (.word (marks ++ text.map (Mark.mk .bare)))) := by
  induction text generalizing marks with
  | nil => rw [advance, List.map_nil, List.append_nil]
  | cons c rest inductionHypothesis =>
      obtain ⟨here, behind⟩ := List.forall_mem_cons.mp wordBytes
      have stepped : step (.outside (.word marks)) c =
          some ([], .outside (.word (marks ++ [⟨.bare, c⟩]))) :=
        continueWord_of_wordByte here
      have advanced := advance_cons stepped (inductionHypothesis behind)
      rw [List.append_assoc] at advanced
      exact advanced

/-- A text that is one word of the shell where it stands between blanks. -/
structure WordText (text : List UInt8) : Prop where
  nonempty : text ≠ []
  wordBytes : ∀ c ∈ text, WordByte c
  start : ∀ c ∈ text.head?, c ∉ startBytes

theorem advance_blank (blank : isBlank c) :
    advance (.outside .nothing) [c] = some ([], .outside .nothing) := by
  have stepped : step (.outside .nothing) c =
      some ([], .outside .nothing) := by
    simp [step, startToken, blank]
  exact advance_cons stepped rfl

/-- With a blank behind it the text is one unquoted word. -/
theorem advance_argument (wordText : WordText text) (blank : isBlank c) :
    advance (.outside .nothing) (text ++ [c]) =
      some ([bareWord text], .outside .nothing) := by
  obtain ⟨nonempty, wordBytes, start⟩ := wordText
  cases text with
  | nil => exact absurd rfl nonempty
  | cons first rest =>
      obtain ⟨here, behind⟩ := List.forall_mem_cons.mp wordBytes
      have plain : Plain first := ⟨here, start first rfl⟩
      have started : step (.outside .nothing) first =
          some ([], .outside (.word [⟨.bare, first⟩])) := by
        rw [step, startToken_plain plain]
        rfl
      have ended : step (.outside (.word (⟨.bare, first⟩ ::
          rest.map (Mark.mk .bare)))) c =
            some ([bareWord (first :: rest)], .outside .nothing) := by
        rw [step, continueWord, if_pos blank]
        rfl
      exact advance_append (advance_cons started (advance_word behind))
        (advance_cons ended rfl)

theorem advance_comment (noNewline : newline ∉ text) :
    advance .comment text = some ([], .comment) := by
  induction text with
  | nil => rfl
  | cons c rest inductionHypothesis =>
      rw [List.mem_cons, not_or] at noNewline
      have stepped : step .comment c = some ([], .comment) := by
        rw [step, if_neg (Ne.symm noNewline.1)]
      exact advance_cons stepped (inductionHypothesis noNewline.2)

theorem newline_notMem_of_wordBytes (wordBytes : ∀ c ∈ text, WordByte c) :
    newline ∉ text := fun member =>
  absurd (wordBytes newline member) (by decide)

/-- A text of bytes of words that is no word is nothing, or makes a comment of
what is behind it. -/
theorem wordText_or_comment (wordBytes : ∀ c ∈ text, WordByte c)
    (noNewline : newline ∉ rest)
    (advanced : advance (.outside .nothing) (text ++ rest) =
      some (tokens, last)) :
    WordText text ∨ text = [] ∨ tokens = [] ∧ last = .comment := by
  cases text with
  | nil => exact Or.inr (Or.inl rfl)
  | cons first later =>
      by_cases start : first ∈ startBytes
      · right
        right
        have behind : newline ∉ later ++ rest := by
          rw [List.mem_append, not_or]
          exact ⟨newline_notMem_of_wordBytes
            (List.forall_mem_cons.mp wordBytes).2, noNewline⟩
        rw [List.cons_append] at advanced
        obtain ⟨emitted, next, others, stepped, done, rfl⟩ :=
          exists_of_advance_cons advanced
        have either : first = '#'.toUInt8 ∨ first = '~'.toUInt8 := by
          simpa [startBytes, ascii] using start
        rcases either with rfl | rfl
        · have comment : step (.outside .nothing) '#'.toUInt8 =
              some ([], .comment) := rfl
          rw [comment] at stepped
          cases stepped
          rw [advance_comment behind] at done
          cases done
          exact ⟨rfl, rfl⟩
        · have expanded : step (.outside .nothing) '~'.toUInt8 = none := rfl
          rw [expanded] at stepped
          cases stepped
      · left
        refine ⟨List.cons_ne_nil first later, wordBytes, ?_⟩
        rintro c member
        cases member
        exact start

/-- The tokens of a text of bytes of words with a blank and a line behind it. -/
theorem lex_argument_cases (wordBytes : ∀ c ∈ text, WordByte c)
    (blank : isBlank c) (noNewline : newline ∉ c :: rest)
    (lexed : lex (text ++ [c] ++ rest) = some tokens) :
    (WordText text ∧ ∃ later, lex rest = some later ∧
        tokens = bareWord text :: later) ∨
      (text = [] ∧ lex rest = some tokens) ∨ tokens = [] := by
  obtain ⟨emitted, last, later, advanced, finished, same⟩ :=
    lex_eq_some_iff.mp lexed
  have line : text ++ [c] ++ rest = text ++ c :: rest :=
    List.append_assoc text [c] rest
  rw [line] at advanced
  rcases wordText_or_comment wordBytes noNewline advanced with
    wordText | empty | ⟨nothing, comment⟩
  · left
    refine ⟨wordText, ?_⟩
    obtain ⟨start, middle, behind, first, second, parts⟩ :=
      exists_of_advance_append (line ▸ advanced)
    rw [advance_argument wordText blank] at first
    cases first
    refine ⟨behind ++ later, lex_eq second finished, ?_⟩
    rw [← same, ← parts]
    rfl
  · right
    left
    subst empty
    have spaced : lex ([c] ++ rest) = some ([] ++ tokens) ↔
        lex rest = some tokens := lex_append_eq_some_iff (advance_blank blank)
    exact ⟨rfl, spaced.mp lexed⟩
  · right
    right
    rw [comment] at finished
    cases finished
    rw [← same, nothing]
    rfl

/-! ### What a byte does between double quotes -/

theorem step_double_cases
    (stepped : step (.double marks) c = some (emitted, next)) :
    emitted = [] ∧
      (c = doubleQuote ∧ next = .outside (.word marks) ∨
        c = backslash ∧ next = .doubleEscape marks ∨
        Literal c ∧ next = .double (marks ++ [⟨.double, c⟩])) := by
  rw [step] at stepped
  split_ifs at stepped with quote escape substitution <;> cases stepped
  · exact ⟨rfl, Or.inl ⟨quote, rfl⟩⟩
  · exact ⟨rfl, Or.inr (Or.inl ⟨escape, rfl⟩)⟩
  · rw [Bool.not_eq_true] at substitution
    have literal := literal_iff.mpr ⟨quote, escape, substitution⟩
    exact ⟨rfl, Or.inr (Or.inr ⟨literal, rfl⟩)⟩

theorem step_doubleEscape_cases
    (stepped : step (.doubleEscape marks) c = some (emitted, next)) :
    emitted = [] ∧
      (c = newline ∧ next = .double marks ∨
        ¬ Literal c ∧ next = .double (marks ++ [⟨.double, c⟩]) ∨
        c ≠ newline ∧ Literal c ∧ next =
          .double (marks ++ [⟨.double, backslash⟩, ⟨.double, c⟩])) := by
  have active : ¬ Literal c ↔
      c = doubleQuote ∨ c = backslash ∨ isSubstitution c := by
    rw [literal_iff, ← Bool.not_eq_true]
    tauto
  rw [step] at stepped
  split_ifs at stepped with line special <;> cases stepped
  · exact ⟨rfl, Or.inl ⟨line, rfl⟩⟩
  · exact ⟨rfl, Or.inr (Or.inl ⟨active.mpr special, rfl⟩)⟩
  · have literal := not_not.mp (active.not.mpr special)
    exact ⟨rfl, Or.inr (Or.inr ⟨line, literal, rfl⟩)⟩

/-! ### Where the bytes of the tokens come from -/

section Within

variable (P : UInt8 → Prop)

/-- The byte has the property, and outside of quotations it is one of words. -/
def Mark.Sound (mark : Mark) : Prop :=
  P mark.byte ∧ (mark.quoting = .bare → WordByte mark.byte)

def Token.Within : Token → Prop
  | .operator text => ∀ c ∈ text, P c
  | .word marks => ∀ mark ∈ marks, mark.Sound P

def Pending.Within : Pending → Prop
  | .nothing => True
  | .operator text => ∀ c ∈ text, P c
  | .word marks => ∀ mark ∈ marks, mark.Sound P

def State.Within : State → Prop
  | .outside pending => pending.Within P
  | .escape pending => pending.Within P
  | .comment => True
  | .single marks => ∀ mark ∈ marks, mark.Sound P
  | .double marks => ∀ mark ∈ marks, mark.Sound P
  | .doubleEscape marks => P backslash ∧ ∀ mark ∈ marks, mark.Sound P

end Within

variable {P : UInt8 → Prop}

theorem forall_mem_concat {α : Type*} {Q : α → Prop} {items : List α} {item : α}
    (before : ∀ member ∈ items, Q member) (here : Q item) :
    ∀ member ∈ items ++ [item], Q member := by
  rw [List.forall_mem_append, List.forall_mem_singleton]
  exact ⟨before, here⟩

theorem sound_of_quoted {quoting : Quoting} (byte : P c)
    (quoted : quoting ≠ .bare) : (Mark.mk quoting c).Sound P :=
  ⟨byte, fun bare => absurd bare quoted⟩

theorem startToken_within (started : startToken c = some next) (byte : P c) :
    next.Within P := by
  rw [startToken] at started
  split_ifs at started with blank operator _ escape single double other <;>
    cases started
  · trivial
  · exact List.forall_mem_singleton.mpr byte
  · trivial
  · trivial
  · exact List.forall_mem_nil _
  · exact List.forall_mem_nil _
  · have wordByte : WordByte c := by
      simp only [not_or, Bool.not_eq_true] at blank operator other
      exact wordByte_iff.mpr
        ⟨blank, operator, escape, single, double, other.1, other.2.1⟩
    exact List.forall_mem_singleton.mpr ⟨byte, fun _ => wordByte⟩

theorem continueWord_within
    (continued : continueWord marks c = some (emitted, next))
    (inside : ∀ mark ∈ marks, mark.Sound P) (byte : P c) :
    (∀ token ∈ emitted, token.Within P) ∧ next.Within P := by
  have noTokens : ∀ token ∈ ([] : List Token), token.Within P :=
    List.forall_mem_nil _
  have closed : ∀ token ∈ [Token.word marks], token.Within P :=
    List.forall_mem_singleton.mpr inside
  rw [continueWord] at continued
  split_ifs at continued with blank operator escape single double other <;>
    cases continued
  · exact ⟨closed, trivial⟩
  · exact ⟨closed, List.forall_mem_singleton.mpr byte⟩
  · exact ⟨noTokens, inside⟩
  · exact ⟨noTokens, inside⟩
  · exact ⟨noTokens, inside⟩
  · have wordByte : WordByte c := by
      simp only [not_or, Bool.not_eq_true] at blank operator other
      exact wordByte_iff.mpr
        ⟨blank, operator, escape, single, double, other.1, other.2⟩
    exact ⟨noTokens, forall_mem_concat inside ⟨byte, fun _ => wordByte⟩⟩

theorem step_escape_within {pending : Pending}
    (stepped : step (.escape pending) c = some (emitted, next))
    (inside : pending.Within P) (byte : P c) :
    (∀ token ∈ emitted, token.Within P) ∧ next.Within P := by
  have noTokens : ∀ token ∈ ([] : List Token), token.Within P :=
    List.forall_mem_nil _
  have sound : (Mark.mk .escaped c).Sound P := sound_of_quoted byte (by decide)
  have word : ∀ mark ∈ [Mark.mk .escaped c], mark.Sound P :=
    List.forall_mem_singleton.mpr sound
  cases pending with
  | nothing =>
      rw [step] at stepped
      split_ifs at stepped <;> cases stepped
      · exact ⟨noTokens, inside⟩
      · exact ⟨noTokens, word⟩
  | operator text =>
      rw [step] at stepped
      split_ifs at stepped <;> cases stepped
      · exact ⟨noTokens, inside⟩
      · exact ⟨List.forall_mem_singleton.mpr inside, word⟩
  | word marks =>
      rw [step] at stepped
      split_ifs at stepped <;> cases stepped
      · exact ⟨noTokens, inside⟩
      · exact ⟨noTokens, forall_mem_concat inside sound⟩

theorem step_double_within
    (stepped : step (.double marks) c = some (emitted, next))
    (inside : ∀ mark ∈ marks, mark.Sound P) (byte : P c) :
    emitted = [] ∧ next.Within P := by
  obtain ⟨rfl, ⟨_, rfl⟩ | ⟨escape, rfl⟩ | ⟨_, rfl⟩⟩ := step_double_cases stepped
  · exact ⟨rfl, inside⟩
  · exact ⟨rfl, escape ▸ byte, inside⟩
  · exact ⟨rfl, forall_mem_concat inside (sound_of_quoted byte (by decide))⟩

theorem step_doubleEscape_within
    (stepped : step (.doubleEscape marks) c = some (emitted, next))
    (escape : P backslash) (inside : ∀ mark ∈ marks, mark.Sound P)
    (byte : P c) : emitted = [] ∧ next.Within P := by
  have sound : (Mark.mk .double c).Sound P := sound_of_quoted byte (by decide)
  obtain ⟨rfl, ⟨_, rfl⟩ | ⟨_, rfl⟩ | ⟨_, _, rfl⟩⟩ :=
    step_doubleEscape_cases stepped
  · exact ⟨rfl, inside⟩
  · exact ⟨rfl, forall_mem_concat inside sound⟩
  · have kept : ∀ mark ∈ marks ++ [Mark.mk .double backslash], mark.Sound P :=
      forall_mem_concat inside (sound_of_quoted escape (by decide))
    have both : ∀ mark ∈ marks ++ [Mark.mk .double backslash] ++
        [Mark.mk .double c], mark.Sound P := forall_mem_concat kept sound
    rw [List.append_assoc] at both
    exact ⟨rfl, both⟩

/-- One byte adds no other byte to the tokens. -/
theorem step_within (stepped : step state c = some (emitted, next))
    (inside : state.Within P) (byte : P c) :
    (∀ token ∈ emitted, token.Within P) ∧ next.Within P := by
  have noTokens : ∀ token ∈ ([] : List Token), token.Within P :=
    List.forall_mem_nil _
  cases state with
  | outside pending =>
      cases pending with
      | nothing =>
          obtain ⟨_, started, same⟩ := Option.map_eq_some_iff.mp stepped
          cases same
          exact ⟨noTokens, startToken_within started byte⟩
      | operator text =>
          rw [step] at stepped
          split_ifs at stepped
          · cases stepped
            exact ⟨noTokens, forall_mem_concat inside byte⟩
          · cases stepped
            exact ⟨noTokens, inside⟩
          · obtain ⟨_, started, same⟩ := Option.map_eq_some_iff.mp stepped
            cases same
            exact ⟨List.forall_mem_singleton.mpr inside,
              startToken_within started byte⟩
      | word marks => exact continueWord_within stepped inside byte
  | escape pending => exact step_escape_within stepped inside byte
  | comment =>
      rw [step] at stepped
      split_ifs at stepped <;> cases stepped
      · exact ⟨noTokens, List.forall_mem_singleton.mpr byte⟩
      · exact ⟨noTokens, trivial⟩
  | single marks =>
      rw [step] at stepped
      split_ifs at stepped <;> cases stepped
      · exact ⟨noTokens, inside⟩
      · exact ⟨noTokens,
          forall_mem_concat inside (sound_of_quoted byte (by decide))⟩
  | double marks =>
      obtain ⟨rfl, kept⟩ := step_double_within stepped inside byte
      exact ⟨noTokens, kept⟩
  | doubleEscape marks =>
      obtain ⟨rfl, kept⟩ :=
        step_doubleEscape_within stepped inside.1 inside.2 byte
      exact ⟨noTokens, kept⟩

theorem advance_within (advanced : advance state text = some (tokens, last))
    (inside : state.Within P) (bytes : ∀ c ∈ text, P c) :
    (∀ token ∈ tokens, token.Within P) ∧ last.Within P := by
  induction text generalizing state tokens with
  | nil =>
      cases advanced
      exact ⟨List.forall_mem_nil _, inside⟩
  | cons c rest inductionHypothesis =>
      obtain ⟨here, behind⟩ := List.forall_mem_cons.mp bytes
      obtain ⟨emitted, next, later, stepped, done, rfl⟩ :=
        exists_of_advance_cons advanced
      obtain ⟨first, between⟩ := step_within stepped inside here
      obtain ⟨second, ended⟩ := inductionHypothesis done between behind
      exact ⟨List.forall_mem_append.mpr ⟨first, second⟩, ended⟩

theorem finish_within (finished : finish last = some tokens)
    (inside : last.Within P) : ∀ token ∈ tokens, token.Within P := by
  cases last with
  | outside pending =>
      cases pending <;> cases finished
      · exact List.forall_mem_nil _
      · exact List.forall_mem_singleton.mpr inside
      · exact List.forall_mem_singleton.mpr inside
  | comment =>
      cases finished
      exact List.forall_mem_nil _
  | escape | single | double | doubleEscape => cases finished

/-- The words have no byte that the text does not have, and outside of
quotations none that the shell takes out of words. -/
theorem sound_of_lex (lexed : lex text = some tokens)
    (member : Token.word marks ∈ tokens) {mark : Mark} (marked : mark ∈ marks) :
    mark.Sound (· ∈ text) := by
  obtain ⟨emitted, last, later, advanced, finished, rfl⟩ :=
    lex_eq_some_iff.mp lexed
  have start : (State.outside .nothing).Within (· ∈ text) := trivial
  obtain ⟨first, ended⟩ := advance_within advanced start fun _ inside => inside
  have second := finish_within finished ended
  exact List.forall_mem_append.mpr ⟨first, second⟩ _ member mark marked

end Shell

end Bright.Lib

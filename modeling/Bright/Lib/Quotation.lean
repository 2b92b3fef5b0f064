import Bright.Lib.Shell

/-!
# One word between double quotes

A text between double quotes is one word of the shell, with just its bytes,
exactly if it is `Quotable` (`lex_quoted_iff`): each byte stands for itself, or
is a backslash in front of something that it leaves alone.
Sufficiency follows the text.  For the converse the quoted bytes are counted:
each byte of the text adds at most one to them, and a byte that opens or closes
a quotation or takes part in an escape adds none.
-/

namespace Bright.Lib

namespace Shell

variable {state next last : State} {c : UInt8} {text rest : List UInt8}
  {emitted later tokens : List Token} {marks : List Mark}

/-- A backslash in front of the text stays what it is. -/
def KeepsBackslash (text : List UInt8) : Prop :=
  ∃ c ∈ text.head?, c ≠ backslash ∧ c ≠ newline

/-- A text that is one word where it stands between double quotes. -/
def Quotable : List UInt8 → Prop
  | [] => True
  | c :: rest =>
      (Literal c ∨ c = backslash ∧ KeepsBackslash rest) ∧ Quotable rest

instance decidableKeepsBackslash (text : List UInt8) :
    Decidable (KeepsBackslash text) :=
  inferInstanceAs (Decidable (∃ c ∈ text.head?, _))

instance decidableQuotable : (text : List UInt8) → Decidable (Quotable text)
  | [] => isTrue trivial
  | _ :: rest =>
      have := decidableQuotable rest
      inferInstanceAs (Decidable ((_ ∨ _ ∧ _) ∧ _))

/-! ### Quotable texts -/

theorem keepsBackslash_cons :
    KeepsBackslash (c :: rest) ↔ c ≠ backslash ∧ c ≠ newline := by
  simp [KeepsBackslash]

/-- Between double quotes, and behind a backslash there. -/
theorem advance_of_quotable (quotable : Quotable text) (marks : List Mark) :
    advance (.double marks) text =
        some ([], .double (marks ++ text.map (Mark.mk .double))) ∧
      (KeepsBackslash text → advance (.doubleEscape marks) text =
        some ([], .double (marks ++ ⟨.double, backslash⟩ ::
          text.map (Mark.mk .double)))) := by
  induction text generalizing marks with
  | nil =>
      constructor
      · rw [advance, List.map_nil, List.append_nil]
      · rintro ⟨c, member, _⟩
        cases member
  | cons c rest inductionHypothesis =>
      obtain ⟨here, behind⟩ := quotable
      constructor
      · rcases here with literal | ⟨rfl, kept⟩
        · obtain ⟨quote, escape, substitution⟩ := literal_iff.mp literal
          have stepped : step (.double marks) c =
              some ([], .double (marks ++ [⟨.double, c⟩])) := by
            simp [step, quote, escape, substitution]
          have advanced := advance_cons stepped
            (inductionHypothesis behind (marks ++ [⟨.double, c⟩])).1
          rw [List.append_assoc] at advanced
          exact advanced
        · have stepped : step (.double marks) backslash =
              some ([], .doubleEscape marks) := by
            rw [step, if_neg (by decide), if_pos rfl]
          exact advance_cons stepped
            ((inductionHypothesis behind marks).2 kept)
      · intro keeps
        obtain ⟨notEscape, line⟩ := keepsBackslash_cons.mp keeps
        have literal : Literal c :=
          here.resolve_right fun isEscape => notEscape isEscape.1
        obtain ⟨quote, escape, substitution⟩ := literal_iff.mp literal
        have stepped : step (.doubleEscape marks) c =
            some ([], .double
              (marks ++ [⟨.double, backslash⟩, ⟨.double, c⟩])) := by
          simp [step, line, quote, escape, substitution]
        have advanced := advance_cons stepped (inductionHypothesis behind
          (marks ++ [⟨.double, backslash⟩, ⟨.double, c⟩])).1
        rw [List.append_assoc] at advanced
        exact advanced

theorem advance_quoted (quotable : Quotable text) :
    advance (.outside .nothing) (doubleQuote :: (text ++ [doubleQuote])) =
      some ([], .outside (.word (text.map (Mark.mk .double)))) := by
  have opened : step (.outside .nothing) doubleQuote = some ([], .double []) := by
    decide
  have closed : step (.double (text.map (Mark.mk .double))) doubleQuote =
      some ([], .outside (.word (text.map (Mark.mk .double)))) := by
    simp [step]
  exact advance_cons opened
    (advance_append (advance_of_quotable quotable []).1 (advance_cons closed rfl))

theorem quotable_of_literal (literal : ∀ c ∈ text, Literal c) :
    Quotable text := by
  induction text with
  | nil => trivial
  | cons c rest inductionHypothesis =>
      obtain ⟨here, behind⟩ := List.forall_mem_cons.mp literal
      exact ⟨Or.inl here, inductionHypothesis behind⟩

/-! ### Counting quoted bytes -/

/-- The number of bytes between double quotes. -/
def doubles (marks : List Mark) : ℕ :=
  marks.countP fun mark => mark.quoting = .double

theorem doubles_append (first second : List Mark) :
    doubles (first ++ second) = doubles first + doubles second :=
  List.countP_append

theorem doubles_map_double (text : List UInt8) :
    doubles (text.map (Mark.mk .double)) = text.length := by
  rw [doubles, List.countP_map, List.countP_eq_length.mpr]
  intro c _
  rfl

def Token.doubles : Token → ℕ
  | .operator _ => 0
  | .word marks => Shell.doubles marks

def Pending.doubles : Pending → ℕ
  | .nothing => 0
  | .operator _ => 0
  | .word marks => Shell.doubles marks

/-- A backslash between double quotes counts before it is known what it does. -/
def State.doubles : State → ℕ
  | .outside pending => pending.doubles
  | .escape pending => pending.doubles
  | .comment => 0
  | .single marks => Shell.doubles marks
  | .double marks => Shell.doubles marks
  | .doubleEscape marks => Shell.doubles marks + 1

def total : List Token → ℕ
  | [] => 0
  | token :: rest => token.doubles + total rest

theorem total_append (first second : List Token) :
    total (first ++ second) = total first + total second := by
  induction first with
  | nil => exact (Nat.zero_add _).symm
  | cons token rest inductionHypothesis =>
      rw [List.cons_append, total, total, inductionHypothesis, Nat.add_assoc]

theorem startToken_doubles (started : startToken c = some next) :
    next.doubles = 0 := by
  rw [startToken] at started
  split_ifs at started <;> cases started <;> rfl

theorem continueWord_doubles
    (continued : continueWord marks c = some (emitted, next)) :
    total emitted + next.doubles = doubles marks := by
  rw [continueWord] at continued
  split_ifs at continued <;> cases continued <;>
    simp [total, Token.doubles, State.doubles, Pending.doubles, doubles]

theorem doubles_concat (marks : List Mark) (mark : Mark) :
    doubles (marks ++ [mark]) =
      doubles marks + if mark.quoting = .double then 1 else 0 := by
  rw [doubles_append]
  simp [doubles, List.countP_singleton]

theorem step_escape_doubles {pending : Pending}
    (stepped : step (.escape pending) c = some (emitted, next)) :
    total emitted + next.doubles = pending.doubles := by
  cases pending <;> rw [step] at stepped <;>
    split_ifs at stepped <;> cases stepped <;>
    simp [total, Token.doubles, State.doubles, Pending.doubles, doubles]

theorem step_double_doubles
    (stepped : step (.double marks) c = some (emitted, next)) :
    emitted = [] ∧
      next.doubles ≤ doubles marks + if c = doubleQuote then 0 else 1 := by
  obtain ⟨rfl, ⟨_, rfl⟩ | ⟨rfl, rfl⟩ | ⟨literal, rfl⟩⟩ :=
    step_double_cases stepped
  · exact ⟨rfl, Nat.le_add_right _ _⟩
  · exact ⟨rfl, le_rfl⟩
  · refine ⟨rfl, ?_⟩
    rw [if_neg (literal_iff.mp literal).1]
    exact (doubles_concat marks _).le

theorem step_doubleEscape_doubles
    (stepped : step (.doubleEscape marks) c = some (emitted, next)) :
    emitted = [] ∧ next.doubles ≤
      doubles marks + 1 + if c = doubleQuote then 0 else 1 := by
  obtain ⟨rfl, ⟨_, rfl⟩ | ⟨_, rfl⟩ | ⟨_, literal, rfl⟩⟩ :=
    step_doubleEscape_cases stepped
  · refine ⟨rfl, ?_⟩
    rw [State.doubles]
    omega
  · refine ⟨rfl, ?_⟩
    rw [State.doubles, doubles_concat]
    exact Nat.le_add_right _ _
  · refine ⟨rfl, ?_⟩
    rw [if_neg (literal_iff.mp literal).1, State.doubles, doubles_append]
    exact le_rfl

/-- A byte adds at most one to the count, and a quote adds none. -/
theorem step_doubles (stepped : step state c = some (emitted, next)) :
    total emitted + next.doubles ≤
      state.doubles + if c = doubleQuote then 0 else 1 := by
  cases state with
  | outside pending =>
      cases pending with
      | nothing =>
          obtain ⟨_, started, same⟩ := Option.map_eq_some_iff.mp stepped
          cases same
          rw [startToken_doubles started]
          exact Nat.zero_le _
      | operator text =>
          rw [step] at stepped
          split_ifs at stepped
          · cases stepped
            exact Nat.zero_le _
          · cases stepped
            exact Nat.zero_le _
          · obtain ⟨_, started, same⟩ := Option.map_eq_some_iff.mp stepped
            cases same
            rw [startToken_doubles started]
            exact Nat.zero_le _
      | word marks =>
          rw [continueWord_doubles stepped]
          exact Nat.le_add_right _ _
  | escape pending =>
      rw [step_escape_doubles stepped]
      exact Nat.le_add_right _ _
  | comment =>
      rw [step] at stepped
      split_ifs at stepped <;> cases stepped <;> exact Nat.zero_le _
  | single marks =>
      rw [step] at stepped
      split_ifs at stepped <;> cases stepped
      · exact (Nat.zero_add _).trans_le (Nat.le_add_right _ _)
      · rw [State.doubles, doubles_concat]
        exact (Nat.zero_add _).trans_le (Nat.le_add_right _ _)
  | double marks =>
      obtain ⟨rfl, counted⟩ := step_double_doubles stepped
      exact (Nat.zero_add _).trans_le counted
  | doubleEscape marks =>
      obtain ⟨rfl, counted⟩ := step_doubleEscape_doubles stepped
      exact (Nat.zero_add _).trans_le counted

theorem advance_doubles
    (advanced : advance state (text ++ [doubleQuote]) = some (tokens, last)) :
    total tokens + last.doubles ≤ state.doubles + text.length := by
  induction text generalizing state tokens with
  | nil =>
      obtain ⟨emitted, next, later, stepped, done, rfl⟩ :=
        exists_of_advance_cons advanced
      cases done
      have counted := step_doubles stepped
      rw [if_pos rfl] at counted
      rw [List.append_nil]
      exact counted
  | cons c rest inductionHypothesis =>
      obtain ⟨emitted, next, later, stepped, done, rfl⟩ :=
        exists_of_advance_cons advanced
      have counted := step_doubles stepped
      have atMost : (if c = doubleQuote then 0 else 1) ≤ 1 := by
        split_ifs <;> decide
      have behind := inductionHypothesis done
      rw [total_append, List.length_cons]
      omega

theorem finish_doubles (finished : finish last = some later) :
    total later = last.doubles := by
  cases last with
  | outside pending =>
      cases pending <;> cases finished <;> rfl
  | comment =>
      cases finished
      rfl
  | escape | single | double | doubleEscape => cases finished

/-- Where every byte counts, the text is quotable. -/
theorem quotable_of_doubles (text : List UInt8) (marks : List Mark)
    (tokens : List Token) :
    (advance (.double marks) (text ++ [doubleQuote]) = some (tokens, last) →
        (finish last).isSome →
        total tokens + last.doubles = doubles marks + text.length →
        Quotable text) ∧
      (advance (.doubleEscape marks) (text ++ [doubleQuote]) =
          some (tokens, last) →
        (finish last).isSome →
        total tokens + last.doubles = doubles marks + 1 + text.length →
        KeepsBackslash text ∧ Quotable text) := by
  induction text generalizing marks tokens with
  | nil =>
      constructor
      · exact fun _ _ _ => trivial
      · intro advanced finished _
        obtain ⟨emitted, next, later, stepped, done, rfl⟩ :=
          exists_of_advance_cons advanced
        cases done
        have opened : step (.doubleEscape marks) doubleQuote =
            some ([], .double (marks ++ [⟨.double, doubleQuote⟩])) := by
          rw [step, if_neg (by decide), if_pos (Or.inl rfl)]
        rw [opened] at stepped
        cases stepped
        cases finished
  | cons c rest inductionHypothesis =>
      have lost : total [] = 0 := rfl
      constructor
      · intro advanced finished counted
        obtain ⟨emitted, next, later, stepped, done, rfl⟩ :=
          exists_of_advance_cons advanced
        rw [total_append, List.length_cons] at counted
        obtain ⟨rfl, ⟨_, rfl⟩ | ⟨escape, rfl⟩ | ⟨literal, rfl⟩⟩ :=
          step_double_cases stepped
        · -- A quote is no byte of a word, so the count falls behind.
          have atMost := advance_doubles done
          have before : (State.outside (.word marks)).doubles =
              doubles marks := rfl
          omega
        · have behind :=
            (inductionHypothesis marks later).2 done finished (by omega)
          exact ⟨Or.inr ⟨escape, behind.1⟩, behind.2⟩
        · have size : doubles (marks ++ [⟨.double, c⟩]) = doubles marks + 1 :=
            doubles_concat marks _
          have behind := (inductionHypothesis _ later).1 done finished (by omega)
          exact ⟨Or.inl literal, behind⟩
      · intro advanced finished counted
        obtain ⟨emitted, next, later, stepped, done, rfl⟩ :=
          exists_of_advance_cons advanced
        rw [total_append, List.length_cons] at counted
        have atMost := advance_doubles done
        obtain ⟨rfl, ⟨_, rfl⟩ | ⟨_, rfl⟩ | ⟨line, literal, rfl⟩⟩ :=
          step_doubleEscape_cases stepped
        · have before : (State.double marks).doubles = doubles marks := rfl
          omega
        · -- Of the two bytes of an escape only one is left.
          have before : (State.double (marks ++ [⟨.double, c⟩])).doubles =
              doubles marks + 1 := doubles_concat marks _
          omega
        · have size : doubles (marks ++
              [⟨.double, backslash⟩, ⟨.double, c⟩]) = doubles marks + 2 :=
            doubles_append marks _
          have behind := (inductionHypothesis _ later).1 done finished (by omega)
          have escape := (literal_iff.mp literal).2.1
          exact ⟨keepsBackslash_cons.mpr ⟨escape, line⟩, Or.inl literal, behind⟩

/-! ### One word between double quotes -/

/-- Between double quotes a text is one word with just its bytes exactly if it is
quotable. -/
theorem lex_quoted_iff :
    lex (doubleQuote :: (text ++ [doubleQuote])) = some [quotedWord text] ↔
      Quotable text := by
  constructor
  · intro lexed
    obtain ⟨emitted, last, later, advanced, finished, same⟩ :=
      lex_eq_some_iff.mp lexed
    obtain ⟨start, next, behind, stepped, done, rfl⟩ :=
      exists_of_advance_cons advanced
    have opened : step (.outside .nothing) doubleQuote =
        some ([], .double []) := by
      decide
    rw [opened] at stepped
    cases stepped
    have size := congrArg total same
    have quoted : total [quotedWord text] = text.length := by
      rw [total, total, Nat.add_zero]
      exact doubles_map_double text
    rw [total_append, quoted, finish_doubles finished] at size
    have closes : (finish last).isSome := Option.isSome_iff_exists.mpr ⟨_, finished⟩
    have nothing : doubles [] = 0 := rfl
    apply (quotable_of_doubles text [] behind).1 done closes
    rw [List.nil_append] at size
    omega
  · intro quotable
    exact lex_eq (advance_quoted quotable) rfl

end Shell

end Bright.Lib

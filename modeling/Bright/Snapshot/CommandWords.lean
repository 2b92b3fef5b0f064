import Bright.Lib.Quotation
import Bright.Snapshot.Escapes
import Bright.Snapshot.Totals

/-!
# The words of the commands

`run` writes the account and the key of a record without quotes into a command
and the quantity between double quotes, and `parse` has looked at nothing but
the length of the account.

The commands of a record are the two invocations they are meant to be exactly
if the account and the key are words of the shell as they stand and the
quantity can be quoted (`invoked_iff`).  In the commands of an accepted line,
besides, no field has a byte that the shell gives a meaning, exactly if the
fields of the line are plain (`confined_iff`).
-/

namespace Bright.Snapshot

open Bright.Lib
open Bright.Eosio (StdString)
open Bright.Name (cString cString_eq_self_iff zero_notMem_cString)

def bareWords (words : List String) : List Shell.Token :=
  words.map fun word => Shell.bareWord word.toUTF8.toList

/-- An option with an amount between double quotes. -/
def quotedOption (option amount : String) : List Shell.Token :=
  [Shell.bareWord option.toUTF8.toList, Shell.quotedWord amount.toUTF8.toList]

def cleosWords : List Shell.Token :=
  bareWords ["cleos", "--wallet-url", "http://127.0.0.1:8901", "--url",
    "http://10.186.11.141:8888"]

def createStart : List Shell.Token :=
  cleosWords ++ bareWords ["system", "newaccount", "--transfer", "eosio"]

def createEnd : List Shell.Token :=
  quotedOption "--stake-net" "200.0000 UOS" ++
    quotedOption "--stake-cpu" "200.0000 UOS" ++
    quotedOption "--buy-ram" "200.0000 UOS" ++
    [.operator ">>".toUTF8.toList] ++ bareWords ["info.log"]

/-- The words of the first command, and where its output goes. -/
def createTokens (usr : Stuser) : List Shell.Token :=
  createStart ++ [Shell.bareWord usr.account, Shell.bareWord usr.pubkey] ++
    createEnd

def transferStart : List Shell.Token :=
  cleosWords ++ bareWords ["transfer", "eosio"]

def uos : StdString := " UOS ".toUTF8.toList

/-- The words of the second command. -/
def transferTokens (usr : Stuser) : List Shell.Token :=
  transferStart ++
    [Shell.bareWord usr.account, Shell.quotedWord (usr.quantity ++ uos)]

def space : UInt8 := ' '.toUInt8

variable {usr : Stuser} {tokens : List StdString} {text : StdString} {c : UInt8}

/-! ### The commands and their parts -/

/-- The create command before it is passed on as a C string. -/
def createLine (usr : Stuser) : StdString :=
  head ++ create ++ usr.account ++ " ".toUTF8.toList ++ usr.pubkey ++ strtail ++
    log

/-- What is behind the first space behind the key. -/
def createRest : StdString := (strtail ++ log).tail

theorem commands_eq (usr : Stuser) :
    commands usr = [cString (createLine usr), cString (transferLine usr)] := rfl

/-- The texts that are the same in all commands, and their tokens. -/
@[mk_iff]
structure FixedParts : Prop where
  gap : " ".toUTF8.toList = [space]
  gapQuote : " \"".toUTF8.toList = [space] ++ [Shell.doubleQuote]
  uosQuote : " UOS \"".toUTF8.toList = uos ++ [Shell.doubleQuote]
  uosLiteral : ∀ c ∈ uos, Shell.Literal c
  rest : [space] ++ createRest = strtail ++ log
  restBytes : ∀ c ∈ createRest, c ≠ 0 ∧ c ≠ Shell.newline
  startBytes : 0 ∉ head ++ create
  headTokens : Shell.advance (.outside .nothing) head =
    some (cleosWords, .outside .nothing)
  createWords : Shell.advance (.outside .nothing) create =
    some (bareWords ["system", "newaccount", "--transfer", "eosio"],
      .outside .nothing)
  transferWords : Shell.advance (.outside .nothing) transfer =
    some (bareWords ["transfer", "eosio"], .outside .nothing)
  restTokens : Shell.lex createRest = some createEnd

theorem fixedParts : FixedParts := by
  rw [fixedParts_iff]
  decide +kernel

/-! ### What is asked of the commands -/

/-- White space, quotes, the backslash and the other bytes that mean something
to a shell. -/
def shellBytes : List UInt8 :=
  Shell.ascii [' ', '\t', '\n', '\x0b', '\x0c', '\r', '\'', '"', '\\', ';', '&',
    '|', '<', '>', '(', ')', '$', '\x60', '*', '?', '[', ']', '#', '~']

def carriageReturn : UInt8 := '\r'.toUInt8

/-- A text of some bytes, but for one of some ends. -/
def EndsIn (P : UInt8 → Prop) (ends : List StdString) (text : StdString) : Prop :=
  ∃ amount, ∃ tail ∈ ends, text = amount ++ tail ∧ ∀ c ∈ amount, P c

/-- Both commands of a record are the invocations with its fields. -/
def Invoked (usr : Stuser) : Prop :=
  (commands usr).map Shell.lex =
    [some (createTokens usr), some (transferTokens usr)]

/-- The commands are the invocations, and no field has a byte that means
something to a shell. -/
structure Confined (usr : Stuser) : Prop where
  invoked : Invoked usr
  account : ∀ c ∈ usr.account, c ∉ shellBytes
  pubkey : ∀ c ∈ usr.pubkey, c ∉ shellBytes
  quantity : EndsIn (· ∉ shellBytes) [[], [space]] usr.quantity

/-- A byte that means nothing to a shell and ends no C string. -/
def PlainByte (c : UInt8) : Prop := c ≠ 0 ∧ c ∉ shellBytes

/-- The fields of a line that count are plain, the key is there, and at most one
space or carriage return ends the quantity. -/
structure PlainFields (tokens : List StdString) : Prop where
  account : ∀ c ∈ lastField 1 tokens, PlainByte c
  pubkeyGiven : lastField 2 tokens ≠ []
  pubkey : ∀ c ∈ lastField 2 tokens, PlainByte c
  quantity : EndsIn PlainByte [[], [space], [carriageReturn]] (lastField 3 tokens)

/-! ### The commands from part to part -/

theorem createLine_eq (usr : Stuser) :
    createLine usr =
      (head ++ create) ++ (usr.account ++ [space] ++
        (usr.pubkey ++ [space] ++ createRest)) := by
  simp only [createLine, fixedParts.gap, List.append_assoc, fixedParts.rest]

theorem transferLine_eq (usr : Stuser) :
    transferLine usr =
      (head ++ transfer) ++ (usr.account ++ [space] ++
        (Shell.doubleQuote :: (usr.quantity ++ uos ++ [Shell.doubleQuote]))) := by
  simp only [transferLine, fixedParts.gapQuote, fixedParts.uosQuote,
    List.append_assoc, List.cons_append, List.nil_append]

theorem newline_notMem_createRest : Shell.newline ∉ space :: createRest := by
  rw [List.mem_cons, not_or]
  exact ⟨by decide, fun member => (fixedParts.restBytes _ member).2 rfl⟩

theorem cString_createLine (account : 0 ∉ usr.account)
    (pubkey : 0 ∉ usr.pubkey) : cString (createLine usr) = createLine usr := by
  have start := fixedParts.startBytes
  have rest : 0 ∉ createRest := fun member =>
    (fixedParts.restBytes 0 member).1 rfl
  have gap : 0 ∉ [space] := by decide
  rw [cString_eq_self_iff, createLine_eq]
  simp only [List.mem_append, not_or] at start ⊢
  exact ⟨start, ⟨account, gap⟩, ⟨pubkey, gap⟩, rest⟩

theorem cString_transferLine (account : 0 ∉ usr.account)
    (quantity : 0 ∉ usr.quantity) :
    cString (transferLine usr) = transferLine usr := by
  have carried := transferLine_carried_iff.mpr ⟨account, quantity⟩
  rw [commands_eq] at carried
  exact Option.some.inj carried

theorem createStart_read :
    Shell.advance (.outside .nothing) (head ++ create) =
      some (createStart, .outside .nothing) :=
  Shell.advance_append fixedParts.headTokens fixedParts.createWords

theorem transferStart_read :
    Shell.advance (.outside .nothing) (head ++ transfer) =
      some (transferStart, .outside .nothing) :=
  Shell.advance_append fixedParts.headTokens fixedParts.transferWords

theorem isBlank_space : Shell.isBlank space := by decide

/-! ### Records whose commands are the invocations -/

theorem account_mem_createTokens (usr : Stuser) :
    Shell.bareWord usr.account ∈ createTokens usr :=
  List.mem_append_left _ (List.mem_append_right _ List.mem_cons_self)

theorem pubkey_mem_createTokens (usr : Stuser) :
    Shell.bareWord usr.pubkey ∈ createTokens usr :=
  List.mem_append_left _
    (List.mem_append_right _ (List.mem_cons_of_mem _ List.mem_cons_self))

theorem quantity_mem_transferTokens (usr : Stuser) :
    Shell.quotedWord (usr.quantity ++ uos) ∈ transferTokens usr :=
  List.mem_append_right _ (List.mem_cons_of_mem _ List.mem_cons_self)

theorem zero_notMem_of_lex {words : List Shell.Token} {quoting : Shell.Quoting}
    (lexed : Shell.lex (cString text) = some words) {field : StdString}
    (isWord : Shell.Token.word (field.map (Shell.Mark.mk quoting)) ∈ words) :
    0 ∉ field := by
  intro member
  have marked : Shell.Mark.mk quoting 0 ∈ field.map (Shell.Mark.mk quoting) :=
    List.mem_map_of_mem member
  exact zero_notMem_cString text (Shell.sound_of_lex lexed isWord marked).1

theorem wordByte_of_lex {words : List Shell.Token}
    (lexed : Shell.lex text = some words) {field : StdString}
    (isWord : Shell.bareWord field ∈ words) :
    ∀ c ∈ field, Shell.WordByte c := by
  intro c member
  have marked : Shell.Mark.mk .bare c ∈ field.map (Shell.Mark.mk .bare) :=
    List.mem_map_of_mem member
  exact (Shell.sound_of_lex lexed isWord marked).2 rfl

theorem createTokens_eq (usr : Stuser) :
    createTokens usr = createStart ++
      (Shell.bareWord usr.account :: Shell.bareWord usr.pubkey :: createEnd) :=
  List.append_assoc _ _ _

theorem lex_createLine_iff :
    Shell.lex (createLine usr) = some (createTokens usr) ↔
      Shell.lex (usr.account ++ [space] ++
        (usr.pubkey ++ [space] ++ createRest)) =
        some (Shell.bareWord usr.account :: Shell.bareWord usr.pubkey ::
          createEnd) := by
  rw [createLine_eq, createTokens_eq]
  exact Shell.lex_append_eq_some_iff createStart_read

/-- The tokens from the key on. -/
theorem key_cases (pubkey : ∀ c ∈ usr.pubkey, Shell.WordByte c)
    {words : List Shell.Token}
    (lexed : Shell.lex (usr.pubkey ++ [space] ++ createRest) = some words) :
    (Shell.WordText usr.pubkey ∧
        words = Shell.bareWord usr.pubkey :: createEnd) ∨
      words = createEnd ∨ words = [] := by
  rcases Shell.lex_argument_cases pubkey isBlank_space
      newline_notMem_createRest lexed with
    ⟨wordText, later, lexedRest, same⟩ | ⟨-, lexedRest⟩ | nothing
  · rw [fixedParts.restTokens] at lexedRest
    cases lexedRest
    exact Or.inl ⟨wordText, same⟩
  · rw [fixedParts.restTokens] at lexedRest
    cases lexedRest
    exact Or.inr (Or.inl rfl)
  · exact Or.inr (Or.inr nothing)

theorem wordTexts_of_createLine (account : ∀ c ∈ usr.account, Shell.WordByte c)
    (pubkey : ∀ c ∈ usr.pubkey, Shell.WordByte c)
    (lexed : Shell.lex (createLine usr) = some (createTokens usr)) :
    Shell.WordText usr.account ∧ Shell.WordText usr.pubkey := by
  have noNewline :
      Shell.newline ∉ space :: (usr.pubkey ++ [space] ++ createRest) := by
    have outside := newline_notMem_createRest
    have inside := Shell.newline_notMem_of_wordBytes pubkey
    simp only [List.mem_cons, List.mem_append, List.not_mem_nil, not_or]
      at outside ⊢
    exact ⟨outside.1, ⟨inside, outside.1, not_false⟩, outside.2⟩
  rcases Shell.lex_argument_cases account isBlank_space noNewline
      (lex_createLine_iff.mp lexed) with
    ⟨wordText, later, lexedKey, same⟩ | ⟨-, lexedKey⟩ | nothing
  · injection same with _ behind
    subst behind
    rcases key_cases pubkey lexedKey with ⟨keyText, _⟩ | short | nothing
    · exact ⟨wordText, keyText⟩
    · have sizes := congrArg List.length short
      simp only [List.length_cons] at sizes
      omega
    · cases nothing
  · rcases key_cases pubkey lexedKey with ⟨_, short⟩ | short | nothing
    · have sizes := congrArg List.length short
      simp only [List.length_cons] at sizes
      omega
    · have sizes := congrArg List.length short
      simp only [List.length_cons] at sizes
      omega
    · cases nothing
  · cases nothing

/-- The tokens of the create command around those of the two fields. -/
theorem lex_createLine_of_fields {words : List Shell.Token}
    (fields : Shell.advance (.outside .nothing)
      (usr.account ++ [space] ++ (usr.pubkey ++ [space])) =
        some (words, .outside .nothing)) :
    Shell.lex (createLine usr) = some (createStart ++ (words ++ createEnd)) := by
  have line : usr.account ++ [space] ++ (usr.pubkey ++ [space] ++ createRest) =
      usr.account ++ [space] ++ (usr.pubkey ++ [space]) ++ createRest :=
    (List.append_assoc _ _ _).symm
  rw [createLine_eq, line, Shell.lex_append_eq_some_iff createStart_read,
    Shell.lex_append_eq_some_iff fields]
  exact fixedParts.restTokens

theorem lex_createLine (account : Shell.WordText usr.account)
    (pubkey : Shell.WordText usr.pubkey) :
    Shell.lex (createLine usr) = some (createTokens usr) := by
  rw [createTokens_eq]
  exact lex_createLine_of_fields
    (Shell.advance_append (Shell.advance_argument account isBlank_space)
      (Shell.advance_argument pubkey isBlank_space))

theorem lex_transferLine_iff (account : Shell.WordText usr.account) :
    Shell.lex (transferLine usr) = some (transferTokens usr) ↔
      Shell.Quotable (usr.quantity ++ uos) := by
  have first := Shell.advance_argument account isBlank_space
  rw [transferLine_eq, transferTokens,
    Shell.lex_append_eq_some_iff transferStart_read, ← Shell.lex_quoted_iff]
  exact Shell.lex_append_eq_some_iff first

/-- The commands are the invocations exactly if the account and the key are
words of the shell and the quantity can be quoted. -/
theorem invoked_iff (usr : Stuser) :
    Invoked usr ↔
      (0 ∉ usr.account ∧ Shell.WordText usr.account) ∧
        (0 ∉ usr.pubkey ∧ Shell.WordText usr.pubkey) ∧
          0 ∉ usr.quantity ∧ Shell.Quotable (usr.quantity ++ uos) := by
  rw [Invoked, commands_eq, List.map_cons, List.map_cons, List.map_nil,
    List.cons.injEq, List.cons.injEq]
  constructor
  · rintro ⟨created, transferred, -⟩
    have accountZero :=
      zero_notMem_of_lex created (account_mem_createTokens usr)
    have pubkeyZero := zero_notMem_of_lex created (pubkey_mem_createTokens usr)
    have quantityZero : 0 ∉ usr.quantity := fun member =>
      zero_notMem_of_lex transferred (quantity_mem_transferTokens usr)
        (List.mem_append_left uos member)
    rw [cString_createLine accountZero pubkeyZero] at created
    rw [cString_transferLine accountZero quantityZero] at transferred
    obtain ⟨account, pubkey⟩ := wordTexts_of_createLine
      (wordByte_of_lex created (account_mem_createTokens usr))
      (wordByte_of_lex created (pubkey_mem_createTokens usr)) created
    exact ⟨⟨accountZero, account⟩, ⟨pubkeyZero, pubkey⟩, quantityZero,
      (lex_transferLine_iff account).mp transferred⟩
  · rintro ⟨⟨accountZero, account⟩, ⟨pubkeyZero, pubkey⟩, quantityZero, quotable⟩
    rw [cString_createLine accountZero pubkeyZero,
      cString_transferLine accountZero quantityZero]
    exact ⟨lex_createLine account pubkey,
      (lex_transferLine_iff account).mpr quotable, rfl⟩

/-! ### Plain fields -/

theorem wordText_of_plain (given : text ≠ []) (plain : ∀ c ∈ text, PlainByte c) :
    Shell.WordText text := by
  have delimiters : Shell.delimiterBytes ⊆ shellBytes := by decide
  have starts : Shell.startBytes ⊆ shellBytes := by decide
  refine ⟨given, ?_, ?_⟩
  · exact fun c member delimiter => (plain c member).2 (delimiters delimiter)
  · intro c first start
    exact (plain c (List.mem_of_mem_head? first)).2 (starts start)

theorem quotable_of_plain {quantity : StdString}
    (plain : EndsIn PlainByte [[], [space]] quantity) :
    Shell.Quotable (quantity ++ uos) := by
  obtain ⟨amount, tail, isTail, rfl, bytes⟩ := plain
  have active : Shell.activeBytes ⊆ shellBytes := by decide
  have ending : ∀ c ∈ tail, Shell.Literal c := by
    rcases List.mem_cons.mp isTail with rfl | isSpace
    · exact List.forall_mem_nil _
    · rw [List.mem_singleton.mp isSpace]
      exact List.forall_mem_singleton.mpr (by decide)
  apply Shell.quotable_of_literal
  rw [List.forall_mem_append, List.forall_mem_append]
  refine ⟨⟨?_, ending⟩, fixedParts.uosLiteral⟩
  exact fun c member isActive => (bytes c member).2 (active isActive)

theorem replaceReturn_append {amount : StdString}
    (noReturn : carriageReturn ∉ amount) (tail : StdString) :
    replaceReturn (amount ++ tail) = amount ++ replaceReturn tail := by
  induction amount with
  | nil => rfl
  | cons c rest inductionHypothesis =>
      rw [List.mem_cons, not_or] at noReturn
      have other : ¬ c = '\r'.toUInt8 := Ne.symm noReturn.1
      rw [List.cons_append, replaceReturn, if_neg other,
        inductionHypothesis noReturn.2, List.cons_append]

/-- A space behind bytes that are no spaces is the one at the end. -/
theorem eq_of_endsInSpace {before after amount tail : StdString}
    (noSpace : space ∉ amount) (isTail : tail ∈ [[], [space]])
    (parts : before ++ space :: after = amount ++ tail) :
    before = amount ∧ after = [] := by
  rcases List.mem_cons.mp isTail with rfl | isSpace
  · have member : space ∈ amount ++ [] := by
      rw [← parts]
      exact List.mem_append_right before List.mem_cons_self
    rw [List.append_nil] at member
    exact absurd member noSpace
  · rw [List.mem_singleton.mp isSpace] at parts
    obtain ⟨same, -, nothing⟩ :=
      (List.append_cons_inj_of_notMem noSpace List.not_mem_nil).mp parts.symm
    exact ⟨same.symm, nothing.symm⟩

/-- The carriage return that ends a quantity becomes its space. -/
theorem endsIn_replaceReturn_iff {P : UInt8 → Prop} (noSpace : ¬ P space)
    (noReturn : ¬ P carriageReturn) (field : StdString) :
    EndsIn P [[], [space]] (replaceReturn field) ↔
      EndsIn P [[], [space], [carriageReturn]] field := by
  constructor
  · rintro ⟨amount, tail, isTail, parts, bytes⟩
    by_cases hasReturn : carriageReturn ∈ field
    · obtain ⟨before, after, rfl, first⟩ :=
        List.eq_append_cons_of_mem hasReturn
      have replaced : replaceReturn (carriageReturn :: after) =
          space :: after := rfl
      rw [replaceReturn_append first, replaced] at parts
      have noSpaceInside : space ∉ amount := fun member =>
        noSpace (bytes space member)
      obtain ⟨rfl, rfl⟩ := eq_of_endsInSpace noSpaceInside isTail parts
      have isLast : [carriageReturn] ∈ [[], [space], [carriageReturn]] := by
        decide
      exact ⟨before, [carriageReturn], isLast, rfl, bytes⟩
    · rw [replaceReturn_of_notMem hasReturn] at parts
      have widened : [[], [space]] ⊆ [[], [space], [carriageReturn]] := by
        decide
      exact ⟨amount, tail, widened isTail, parts, bytes⟩
  · rintro ⟨amount, tail, isTail, rfl, bytes⟩
    have noReturnInside : carriageReturn ∉ amount := fun member =>
      noReturn (bytes carriageReturn member)
    have tails : ∀ tail ∈ [[], [space], [carriageReturn]],
        replaceReturn tail ∈ [[], [space]] := by
      decide
    exact ⟨amount, replaceReturn tail, tails tail isTail,
      replaceReturn_append noReturnInside tail, bytes⟩

theorem EndsIn.of_forall {P Q : UInt8 → Prop} {ends : List StdString}
    (endsIn : EndsIn P ends text) (bytes : ∀ c ∈ text, P c → Q c) :
    EndsIn Q ends text := by
  obtain ⟨amount, tail, isTail, rfl, inside⟩ := endsIn
  refine ⟨amount, tail, isTail, rfl, ?_⟩
  intro c member
  exact bytes c (List.mem_append_left tail member) (inside c member)

theorem confined_iff_plain (accountGiven : usr.account ≠ []) :
    Confined usr ↔
      (∀ c ∈ usr.account, PlainByte c) ∧
        (usr.pubkey ≠ [] ∧ ∀ c ∈ usr.pubkey, PlainByte c) ∧
          EndsIn PlainByte [[], [space]] usr.quantity := by
  constructor
  · rintro ⟨invoked, account, pubkey, quantity⟩
    obtain ⟨⟨accountZero, -⟩, ⟨pubkeyZero, keyText⟩, quantityZero, -⟩ :=
      (invoked_iff usr).mp invoked
    have notZero {text : StdString} (noZero : 0 ∉ text) : ∀ c ∈ text, c ≠ 0 :=
      fun c member zero => noZero (zero ▸ member)
    refine ⟨?_, ⟨keyText.nonempty, ?_⟩, ?_⟩
    · exact fun c member => ⟨notZero accountZero c member, account c member⟩
    · exact fun c member => ⟨notZero pubkeyZero c member, pubkey c member⟩
    · exact quantity.of_forall fun c member ordinary =>
        ⟨notZero quantityZero c member, ordinary⟩
  · rintro ⟨account, ⟨pubkeyGiven, pubkey⟩, quantity⟩
    have noZero {text : StdString} (plain : ∀ c ∈ text, PlainByte c) :
        0 ∉ text := fun member => (plain 0 member).1 rfl
    have quantityZero : 0 ∉ usr.quantity := by
      obtain ⟨amount, tail, isTail, parts, bytes⟩ := quantity
      have endings : ∀ tail ∈ [[], [space]], 0 ∉ tail := by decide
      rw [parts, List.mem_append, not_or]
      exact ⟨noZero bytes, endings tail isTail⟩
    have invoked := (invoked_iff usr).mpr
      ⟨⟨noZero account, wordText_of_plain accountGiven account⟩,
        ⟨noZero pubkey, wordText_of_plain pubkeyGiven pubkey⟩,
        quantityZero, quotable_of_plain quantity⟩
    refine ⟨invoked, ?_, ?_, ?_⟩
    · exact fun c member => (account c member).2
    · exact fun c member => (pubkey c member).2
    · exact quantity.of_forall fun _ _ plain => plain.2

/-- The commands of an accepted line are its two invocations exactly if its
fields are plain. -/
theorem confined_iff (tokenize : StdString → Option (List StdString))
    (globals : Globals) (strline : StdString) (tokens : List StdString)
    (notEmpty : strline ≠ []) (tokenised : tokenize strline = some tokens)
    (accepted : 12 ≤ (lastField 1 tokens).length) :
    ∃ record, parse tokenize strline globals =
        some { globals with
          gFailload := globals.gFailload + 1
          gMapuser := globals.gMapuser.put record } ∧
      (Confined record.2 ↔ PlainFields tokens) := by
  have read := lineRecord_of_tokens notEmpty tokenised
  have isAccepted : Accepted (lastField 0 tokens, ⟨lastField 1 tokens,
      lastField 2 tokens, replaceReturn (lastField 3 tokens)⟩) := accepted
  have accountGiven : lastField 1 tokens ≠ [] :=
    List.ne_nil_of_length_pos (by omega)
  have noSpace : ¬ PlainByte space := by
    unfold PlainByte
    decide
  have noReturn : ¬ PlainByte carriageReturn := by
    unfold PlainByte
    decide
  refine ⟨_, (parse_of_lineRecord read).trans (if_pos isAccepted), ?_⟩
  rw [confined_iff_plain accountGiven,
    endsIn_replaceReturn_iff noSpace noReturn]
  constructor
  · rintro ⟨account, ⟨pubkeyGiven, pubkey⟩, quantity⟩
    exact ⟨account, pubkeyGiven, pubkey, quantity⟩
  · intro plain
    exact ⟨plain.account, ⟨plain.pubkeyGiven, plain.pubkey⟩, plain.quantity⟩

/-- A line with a carriage return behind its quantity. -/
def plainLine : StdString := "A,accountofab1,K,1\r".toUTF8.toList

theorem confined_plainLine :
    ∃ record, parse escapedList plainLine Globals.initial =
        some { Globals.initial with
          gFailload := Globals.initial.gFailload + 1
          gMapuser := Globals.initial.gMapuser.put record } ∧
      Confined record.2 := by
  let tokens := ["A", "accountofab1", "K", "1\r"].map fun field =>
    field.toUTF8.toList
  have tokenised : escapedList plainLine = some tokens := by decide +kernel
  obtain ⟨record, parsed, confined⟩ := confined_iff escapedList Globals.initial
    plainLine tokens (by decide +kernel) tokenised (by decide +kernel)
  refine ⟨record, parsed, confined.mpr ?_⟩
  have amount : EndsIn PlainByte [[], [space], [carriageReturn]]
      (lastField 3 tokens) := by
    refine ⟨"1".toUTF8.toList, [carriageReturn], by decide,
      by decide +kernel, ?_⟩
    unfold PlainByte
    decide +kernel
  constructor
  · unfold PlainByte
    decide +kernel
  · decide +kernel
  · unfold PlainByte
    decide +kernel
  · exact amount

/-- The account of a line ends the command behind it and starts another. -/
theorem confined_injectedLine :
    ∃ record, lineRecord escapedList "A,accountofab1;id,K,1".toUTF8.toList =
        some record ∧ Accepted record ∧ ¬ Confined record.2 ∧
      (commands record.2).head?.bind Shell.lex =
        some (createStart ++ bareWords ["accountofab1"] ++
          [.operator ";".toUTF8.toList] ++ bareWords ["id", "K"] ++
            createEnd) := by
  let record : StdString × Stuser := ("A".toUTF8.toList,
    ⟨"accountofab1;id".toUTF8.toList, "K".toUTF8.toList, "1".toUTF8.toList⟩)
  have read : lineRecord escapedList
      "A,accountofab1;id,K,1".toUTF8.toList = some record := by
    decide +kernel
  have accepted : Accepted record := by decide +kernel
  have notConfined : ¬ Confined record.2 := by
    intro confined
    have member : ';'.toUInt8 ∈ record.2.account := by decide +kernel
    exact confined.account _ member (by decide)
  refine ⟨record, read, accepted, notConfined, ?_⟩
  have injected : Shell.advance (.outside .nothing)
      (record.2.account ++ [space] ++ (record.2.pubkey ++ [space])) =
        some (bareWords ["accountofab1"] ++ [.operator ";".toUTF8.toList] ++
          bareWords ["id", "K"], .outside .nothing) := by
    decide +kernel
  have noZero : 0 ∉ record.2.account ∧ 0 ∉ record.2.pubkey := by
    decide +kernel
  rw [commands_eq, List.head?_cons, Option.bind_some,
    cString_createLine noZero.1 noZero.2, lex_createLine_of_fields injected]
  simp only [List.append_assoc]

end Bright.Snapshot

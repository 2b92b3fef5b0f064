import Bright.Keephand.Validity

/-!
# Refused actions

`Refusal self db tx abort` lists the ways in which an action can be aborted in
a valid state, each with the check that failed.  Agreement of the tables makes
the remaining checks of the contract dead: no constructor mentions the
`emplace` of `createAssetDataByAccount`, the second lookup of `modasset`, the
lookup of the receiver in the asset table, or the checks inside `fundsOption`
and `modifyAsset`.
-/

namespace Bright.Keephand

open Bright.Lib Bright.Eosio

/-- The checks that can fail in a valid state. -/
inductive Refusal (self : AccountName) (db : Tables) :
    Transaction → Abort → Prop
  | createNameEmpty {signers name pubkey} (zero : ¬ 0 < name) :
      Refusal self db ⟨signers, .createacnt name pubkey⟩
        (.assertion "name empty \n")
  | createPubkeyEmpty {signers name pubkey}
      (empty : ¬ 0 < pubkey.length) :
      Refusal self db ⟨signers, .createacnt name pubkey⟩
        (.assertion "pubkey empty \n")
  | createUnauthorised {signers name pubkey} (unsigned : self ∉ signers) :
      Refusal self db ⟨signers, .createacnt name pubkey⟩
        (.missingAuthority self)
  | createNameExists {signers name pubkey}
      (registered : name ∈ db.userinfo.keys) :
      Refusal self db ⟨signers, .createacnt name pubkey⟩
        (.assertion "name already exists\n")
  | deleteNameEmpty {signers name} (zero : ¬ 0 < name) :
      Refusal self db ⟨signers, .deleteacnt name⟩
        (.assertion "name empty \n")
  | deleteUnauthorised {signers name} (unsigned : self ∉ signers) :
      Refusal self db ⟨signers, .deleteacnt name⟩ (.missingAuthority self)
  | deleteNotFound {signers name} (absent : name ∉ db.userinfo.keys) :
      Refusal self db ⟨signers, .deleteacnt name⟩
        (.assertion "name not found \n")
  | modassetNameEmpty {signers name funds bsaving} (zero : ¬ 0 < name) :
      Refusal self db ⟨signers, .modasset name funds bsaving⟩
        (.assertion "name empty \n")
  | modassetFunds {signers name funds bsaving} (nonpositive : ¬ 0 < funds) :
      Refusal self db ⟨signers, .modasset name funds bsaving⟩
        (.assertion "funds input error")
  | modassetNotFound {signers name funds bsaving}
      (absent : name ∉ db.userinfo.keys) :
      Refusal self db ⟨signers, .modasset name funds bsaving⟩
        (.assertion "name not foud on userinfo")
  | modassetUnauthorised {signers name funds bsaving}
      (unsigned : name ∉ signers) :
      Refusal self db ⟨signers, .modasset name funds bsaving⟩
        (.missingAuthority name)
  | withdrawNotEnough {signers name funds}
      (short : ¬ 0 ≤ db.balance name - funds - funds * feeRate) :
      Refusal self db ⟨signers, .modasset name funds false⟩
        (.assertion "not enough asset.\n")
  | withdrawNoOwner {signers name funds}
      (absent : self ∉ db.userasset.keys) :
      Refusal self db ⟨signers, .modasset name funds false⟩
        (.assertion " owner user not fund.\n")
  | transferFromEmpty {signers sender receiver funds strremark}
      (zero : ¬ 0 < sender) :
      Refusal self db ⟨signers, .transfer sender receiver funds strremark⟩
        (.assertion "from empty \n")
  | transferToEmpty {signers sender receiver funds strremark}
      (zero : ¬ 0 < receiver) :
      Refusal self db ⟨signers, .transfer sender receiver funds strremark⟩
        (.assertion "to empty \n")
  | transferFunds {signers sender receiver funds strremark}
      (nonpositive : ¬ 0 < funds) :
      Refusal self db ⟨signers, .transfer sender receiver funds strremark⟩
        (.assertion "funds error \n")
  | transferUnauthorised {signers sender receiver funds strremark}
      (unsigned : sender ∉ signers) :
      Refusal self db ⟨signers, .transfer sender receiver funds strremark⟩
        (.missingAuthority sender)
  | transferReceiverNotFound {signers sender receiver funds strremark}
      (absent : receiver ∉ db.userinfo.keys) :
      Refusal self db ⟨signers, .transfer sender receiver funds strremark⟩
        (.assertion "fund receiver user failed on userinfo table. \n")
  | transferSenderNotFound {signers sender receiver funds strremark}
      (absent : sender ∉ db.userasset.keys) :
      Refusal self db ⟨signers, .transfer sender receiver funds strremark⟩
        (.assertion "fund sender failed.\n")
  | transferNotEnough {signers sender receiver funds strremark}
      (short : ¬ 0 ≤ db.balance sender - transferFee funds - funds) :
      Refusal self db ⟨signers, .transfer sender receiver funds strremark⟩
        (.assertion " sender not enough asset.")
  | transferNoOwner {signers sender receiver funds strremark}
      (absent : self ∉ db.userasset.keys) :
      Refusal self db ⟨signers, .transfer sender receiver funds strremark⟩
        (.assertion "fund self failed on asset table\n")

variable {self name sender receiver : AccountName}
  {signers : List AccountName} {funds : ℚ} {db : Tables} {abort : Abort}

private theorem user_missing (missing : db.userinfo.find name = none) :
    name ∉ db.userinfo.keys :=
  Table.notMem_keys.mpr missing

/-- `funds_option` fails only for a missing row or a negative result. -/
private theorem fundsOption_eq_error {opt : Bool}
    (failed : fundsOption name funds opt db = .error abort) :
    name ∉ db.userasset.keys ∨
      db.balance name + signedFunds funds opt < 0 := by
  by_contra passes
  simp only [not_or, not_not, not_lt] at passes
  rw [fundsOption_eq_ok_iff.mpr ⟨passes.1, passes.2, rfl⟩] at failed
  cases failed

private theorem createacnt_refusal {pubkey : StdString} (valid : db.Valid)
    (failed : createacnt self signers name pubkey db = .error abort) :
    Refusal self db ⟨signers, .createacnt name pubkey⟩ abort := by
  simp only [createacnt, createAssetDataByAccount, bind_eq_error_iff,
    eosioAssert_eq_error_iff, eosioAssert_eq_ok_iff, requireAuth_eq_error_iff,
    requireAuth_eq_ok_iff, MultiIndex.emplace_eq_error_iff,
    MultiIndex.emplace_eq_ok_iff] at failed
  rcases failed with ⟨zero, rfl⟩ | ⟨_, _, ⟨empty, rfl⟩ | ⟨_, _,
    ⟨unsigned, rfl⟩ | ⟨_, _, ⟨found, rfl⟩ | ⟨_, absent, emplaced⟩⟩⟩⟩
  · exact .createNameEmpty zero
  · exact .createPubkeyEmpty empty
  · exact .createUnauthorised unsigned
  · apply Refusal.createNameExists
    by_contra notMember
    exact found (Table.notMem_keys.mp notMember)
  · have noAsset : db.userasset.find name = none := by
      rw [← Table.notMem_keys, ← valid.sameNames, Table.notMem_keys]
      exact absent
    rcases emplaced with ⟨taken, _⟩ | ⟨_, _, ⟨taken, _⟩ | ⟨_, _, impossible⟩⟩
    · exact absurd absent taken
    · exact absurd noAsset taken
    · cases impossible

private theorem deleteacnt_refusal
    (failed : deleteacnt self signers name db = .error abort) :
    Refusal self db ⟨signers, .deleteacnt name⟩ abort := by
  simp only [deleteacnt, bind_eq_error_iff, eosioAssert_eq_error_iff,
    requireAuth_eq_error_iff, assertFound_eq_error_iff] at failed
  rcases failed with ⟨zero, rfl⟩ | ⟨_, _, ⟨unsigned, rfl⟩ | ⟨_, _,
    ⟨missing, rfl⟩ | ⟨_, _, impossible⟩⟩⟩
  · exact .deleteNameEmpty zero
  · exact .deleteUnauthorised unsigned
  · exact .deleteNotFound (user_missing missing)
  · cases impossible

private theorem asset_member {row : StAsset}
    (found : db.userasset.find name = some row) : name ∈ db.userasset.keys :=
  Table.mem_keys.mpr (Option.isSome_iff_exists.mpr ⟨row, found⟩)

/-- A registered account has a row in the asset table. -/
private theorem asset_of_user (valid : db.Valid) {user : StUserinfo}
    (found : db.userinfo.find name = some user) :
    db.userasset.find name ≠ none := by
  have member : name ∈ db.userinfo.keys :=
    Table.mem_keys.mpr (Option.isSome_iff_exists.mpr ⟨user, found⟩)
  rw [valid.sameNames] at member
  exact fun missing => Table.notMem_keys.mpr missing member

private theorem modasset_save_refusal (valid : db.Valid)
    (failed : modasset self signers name funds true db = .error abort) :
    Refusal self db ⟨signers, .modasset name funds true⟩ abort := by
  simp only [modasset, bind_eq_error_iff, eosioAssert_eq_error_iff,
    eosioAssert_eq_ok_iff, requireAuth_eq_error_iff, requireAuth_eq_ok_iff,
    assertFound_eq_error_iff, assertFound_eq_ok_iff, if_true] at failed
  rcases failed with ⟨zero, rfl⟩ | ⟨_, _, ⟨nonpositive, rfl⟩ | ⟨_, _,
    ⟨missing, rfl⟩ | ⟨user, registered, ⟨unsigned, rfl⟩ | ⟨_, _,
    ⟨dead, _⟩ | ⟨row, found, impossible | ⟨_, read, written |
    ⟨_, _, impossible⟩⟩⟩⟩⟩⟩⟩
  · exact .modassetNameEmpty zero
  · exact .modassetFunds nonpositive
  · exact .modassetNotFound (user_missing missing)
  · exact .modassetUnauthorised unsigned
  · exact absurd dead (asset_of_user valid registered)
  · cases impossible
  · cases read
    rw [modify_asset (Table.key_of_find found) (asset_member found)] at written
    cases written
  · cases impossible

private theorem modasset_withdraw_refusal (valid : db.Valid)
    (failed : modasset self signers name funds false db = .error abort) :
    Refusal self db ⟨signers, .modasset name funds false⟩ abort := by
  simp only [modasset, bind_eq_error_iff, eosioAssert_eq_error_iff,
    eosioAssert_eq_ok_iff, requireAuth_eq_error_iff, requireAuth_eq_ok_iff,
    assertFound_eq_error_iff, assertFound_eq_ok_iff, Bool.false_eq_true,
    if_false] at failed
  rcases failed with ⟨zero, rfl⟩ | ⟨_, _, ⟨nonpositive, rfl⟩ | ⟨_, _,
    ⟨missing, rfl⟩ | ⟨user, registered, ⟨unsigned, rfl⟩ | ⟨_, _,
    ⟨dead, _⟩ | ⟨row, found, ⟨short, rfl⟩ | ⟨_, _, ⟨noOwner, rfl⟩ |
    ⟨owner, ownerFound, feeFailed | ⟨ass, feeWritten, impossible |
    ⟨_, read, written | ⟨_, _, impossible⟩⟩⟩⟩⟩⟩⟩⟩⟩⟩
  · exact .modassetNameEmpty zero
  · exact .modassetFunds nonpositive
  · exact .modassetNotFound (user_missing missing)
  · exact .modassetUnauthorised unsigned
  · exact absurd dead (asset_of_user valid registered)
  · exact .withdrawNotEnough (Tables.balance_of_find found ▸ short)
  · exact .withdrawNoOwner (Table.notMem_keys.mpr noOwner)
  · rw [modify_asset (Table.key_of_find ownerFound) (asset_member ownerFound)]
      at feeFailed
    cases feeFailed
  · cases impossible
  · cases read
    rw [modify_asset (Table.key_of_find ownerFound) (asset_member ownerFound)]
      at feeWritten
    cases feeWritten
    have stillFunded :
        name ∈ (db.userasset.put ⟨self, funds * feeRate⟩).keys := by
      rw [Table.keys_put]
      exact Finset.mem_insert_of_mem (asset_member found)
    rw [modify_asset (Table.key_of_find found) stillFunded] at written
    cases written
  · cases impossible

private theorem transfer_refusal {strremark : StdString} (valid : db.Valid)
    (failed : transfer self signers sender receiver funds strremark db =
      .error abort) :
    Refusal self db ⟨signers, .transfer sender receiver funds strremark⟩
      abort := by
  have registered_iff :
      isExistAccount receiver db = true ↔ receiver ∈ db.userinfo.keys :=
    Table.mem_keys.symm
  simp only [transfer, bind_eq_error_iff, eosioAssert_eq_error_iff,
    eosioAssert_eq_ok_iff, requireAuth_eq_error_iff, requireAuth_eq_ok_iff,
    assertFound_eq_error_iff, assertFound_eq_ok_iff, registered_iff,
    fundsOption_eq_ok_iff] at failed
  rcases failed with ⟨zero, rfl⟩ | ⟨_, _, ⟨toZero, rfl⟩ | ⟨_, _,
    ⟨nonpositive, rfl⟩ | ⟨_, fundsPositive, ⟨unsigned, rfl⟩ | ⟨_, _,
    ⟨absent, rfl⟩ | ⟨_, registered, ⟨noSender, rfl⟩ | ⟨row, found,
    ⟨short, rfl⟩ | ⟨_, enough, later⟩⟩⟩⟩⟩⟩⟩
  · exact .transferFromEmpty zero
  · exact .transferToEmpty toZero
  · exact .transferFunds nonpositive
  · exact .transferUnauthorised unsigned
  · exact .transferReceiverNotFound absent
  · exact .transferSenderNotFound (Table.notMem_keys.mpr noSender)
  · exact .transferNotEnough (Tables.balance_of_find found ▸ short)
  · have funded : sender ∈ db.userasset.keys := asset_member found
    have receiverFunded : receiver ∈ db.userasset.keys :=
      valid.sameNames ▸ registered
    have solvent := valid.balanceNonneg
    rw [Tables.balance_of_find found |>.symm] at enough
    rcases later with debitFailed | ⟨debited, ⟨_, debit, rfl⟩, afterDebit⟩
    · rcases fundsOption_eq_error debitFailed with noRow | negative
      · exact absurd funded noRow
      · simp only [signedFunds, Bool.false_eq_true, if_false] at negative
        linarith
    · simp only [signedFunds, Bool.false_eq_true, if_false] at afterDebit debit
      have debitedNonneg := nonneg_credit solvent debit
      have receiverStill : receiver ∈
          (db.credit sender (-(transferFee funds + funds))).userasset.keys := by
        rwa [Tables.keys_credit funded]
      rcases afterDebit with ⟨dead, _⟩ | ⟨_, _, creditFailed |
        ⟨_, ⟨_, creditNonneg, rfl⟩, afterCredit⟩⟩
      · exact absurd receiverStill (Table.notMem_keys.mpr dead)
      · rcases fundsOption_eq_error creditFailed with noRow | negative
        · exact absurd receiverStill noRow
        · simp only [signedFunds, if_true] at negative
          linarith [debitedNonneg receiver]
      · simp only [if_true] at afterCredit creditNonneg
        have creditedNonneg := nonneg_credit debitedNonneg creditNonneg
        rcases afterCredit with ⟨noOwner, rfl⟩ | ⟨_, ownerFound, feeFailed⟩
        · apply Refusal.transferNoOwner
          rw [← Table.notMem_keys, Tables.keys_credit receiverStill,
            Tables.keys_credit funded] at noOwner
          exact noOwner
        · rcases fundsOption_eq_error feeFailed with noRow | negative
          · exact absurd (asset_member ownerFound) noRow
          · simp only [signedFunds, if_true] at negative
            have fee : 0 < transferFee funds := transferFee_pos
            linarith [creditedNonneg self]

/-- In a valid state an action is only refused for a failed check of
`Refusal`. -/
theorem refusal_of_error (valid : db.Valid) {tx : Transaction}
    (failed : apply self db tx = .error abort) : Refusal self db tx abort := by
  obtain ⟨signers, action⟩ := tx
  cases action with
  | createacnt name pubkey => exact createacnt_refusal valid failed
  | deleteacnt name => exact deleteacnt_refusal failed
  | modasset name funds bsaving =>
      cases bsaving with
      | true => exact modasset_save_refusal valid failed
      | false => exact modasset_withdraw_refusal valid failed
  | transfer sender receiver funds strremark =>
      exact transfer_refusal valid failed

/-- The messages that a valid state can answer with. -/
def liveMessages : List String :=
  ["name empty \n", "pubkey empty \n", "name already exists\n",
    "name not found \n", "funds input error", "name not foud on userinfo",
    "not enough asset.\n", " owner user not fund.\n", "from empty \n",
    "to empty \n", "funds error \n",
    "fund receiver user failed on userinfo table. \n",
    "fund sender failed.\n", " sender not enough asset.",
    "fund self failed on asset table\n"]

theorem message_of_refusal {tx : Transaction} {message : String}
    (refusal : Refusal self db tx (.assertion message)) :
    message ∈ liveMessages := by
  cases refusal <;> decide

/-- An assertion outside `liveMessages` never fires in a valid state. -/
theorem dead_assertion (valid : db.Valid) {message : String}
    (dead : message ∉ liveMessages) (tx : Transaction) :
    apply self db tx ≠ .error (.assertion message) :=
  fun failed => dead (message_of_refusal (refusal_of_error valid failed))

/-! ### Agreement of the tables -/

/-- In every reachable state the two tables hold the same account names.
Hence no `emplace` hits an existing row, the lookups of a registered account in
the asset table succeed, and `deleteAssetDataByAccount` finds its row. -/
theorem tables_agree {self : AccountName} {db : Tables}
    (reached : Reachable (apply self) Tables.empty db) :
    db.userinfo.keys = db.userasset.keys ∧
      (∀ tx, apply self db tx ≠ .error .keyInUse) ∧
      (∀ tx, apply self db tx ≠
        .error (.assertion "name not fund on asset")) ∧
      (∀ tx, apply self db tx ≠
        .error (.assertion "fund receiver failed on asset table\n")) ∧
      ∀ signers name after,
        apply self db ⟨signers, .deleteacnt name⟩ = .ok after →
          db.userasset.find name ≠ none := by
  have valid := valid_of_reachable reached
  refine ⟨valid.sameNames, ?_, dead_assertion valid (by decide),
    dead_assertion valid (by decide), ?_⟩
  · intro tx failed
    cases refusal_of_error valid failed
  · intro signers name after done missing
    cases apply_eq_ok_iff.mp done with
    | deleted _ _ registered =>
        rw [valid.sameNames] at registered
        exact Table.notMem_keys.mpr missing registered

theorem tables_agree_savedRun :
    (run (apply 1) Tables.empty savedRun).userinfo.keys =
      (run (apply 1) Tables.empty savedRun).userasset.keys :=
  (tables_agree (reachable_run savedRun)).1

/-! ### When a withdrawal is refused -/

/-- A covered withdrawal by a registered account succeeds as long as the
contract account is registered, and is refused for its absence otherwise. -/
theorem covered_withdrawal {self name : AccountName} {db : Tables}
    {signers : List AccountName} {funds : ℚ}
    (reached : Reachable (apply self) Tables.empty db)
    (registered : name ∈ db.userinfo.keys) (positive : 0 < funds)
    (covered : funds + funds / 100 ≤ db.balance name)
    (signed : name ∈ signers) :
    (self ∈ db.userinfo.keys →
      ∃ after,
        apply self db ⟨signers, .modasset name funds false⟩ = .ok after) ∧
      (self ∉ db.userinfo.keys →
        apply self db ⟨signers, .modasset name funds false⟩ =
          .error (.assertion " owner user not fund.\n")) := by
  have valid := valid_of_reachable reached
  have enough : 0 ≤ db.balance name - funds - funds * feeRate := by
    unfold feeRate
    linarith
  constructor
  · intro ownerRegistered
    exact ⟨_, apply_eq_ok_iff.mpr <|
      .withdrew (valid.namesPositive name registered) positive registered
        signed (valid.sameNames ▸ registered) enough
        (valid.sameNames ▸ ownerRegistered)⟩
  · intro ownerAbsent
    cases result : apply self db ⟨signers, .modasset name funds false⟩ with
    | ok after =>
        cases apply_eq_ok_iff.mp result with
        | withdrew _ _ _ _ _ _ owner =>
            exact absurd (valid.sameNames ▸ owner) ownerAbsent
    | error abort =>
        cases refusal_of_error valid result with
        | modassetNameEmpty zero =>
            exact absurd (valid.namesPositive name registered) zero
        | modassetFunds nonpositive => exact absurd positive nonpositive
        | modassetNotFound absent => exact absurd registered absent
        | modassetUnauthorised unsigned => exact absurd signed unsigned
        | withdrawNotEnough short => exact absurd enough short
        | withdrawNoOwner absent => rfl

theorem covered_withdrawal_savedRun :
    ∃ after, apply 1 (run (apply 1) Tables.empty savedRun)
      ⟨[2], .modasset 2 100 false⟩ = .ok after :=
  (covered_withdrawal (reachable_run savedRun) (by decide)
    (by decide +kernel) (by decide +kernel) (by decide +kernel)).1
    (by decide)

/-- The contract account `1` was never registered, so the savings of `2` cannot
be withdrawn. -/
theorem withdrawal_locked :
    ¬ ∀ (self name : AccountName) (db : Tables) (signers : List AccountName)
      (funds : ℚ), Reachable (apply self) Tables.empty db →
        name ∈ db.userinfo.keys → 0 < funds →
        funds + funds / 100 ≤ db.balance name → name ∈ signers →
        ∃ after,
          apply self db ⟨signers, .modasset name funds false⟩ = .ok after := by
  intro neverLocked
  obtain ⟨after, done⟩ := neverLocked 1 2
    (run (apply 1) Tables.empty
      [⟨[1], .createacnt 2 [66]⟩, ⟨[2], .modasset 2 1000 true⟩])
    [2] 100 (reachable_run _) (by decide) (by decide)
    (by decide +kernel) (by decide +kernel)
  cases apply_eq_ok_iff.mp done with
  | withdrew _ _ _ _ _ _ owner =>
      exact absurd owner (by decide)

end Bright.Keephand

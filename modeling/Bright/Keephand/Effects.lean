import Bright.Keephand.Contract
import Mathlib.Tactic.Linarith
import Mathlib.Algebra.BigOperators.Pi

/-!
# What a successful action does

`Effect self db tx after` lists, for each action, the conditions under which
it succeeds and the tables it leaves.  `apply_eq_ok_iff` shows that the list
is exact, so the rest of the development reasons about `Effect` and never
unfolds the contract.
-/

namespace Bright.Keephand

open Bright.Lib Bright.Eosio

namespace Tables

/-- Write the funds of `name`. -/
def setFunds (db : Tables) (name : AccountName) (funds : ℚ) : Tables :=
  { db with userasset := db.userasset.put ⟨name, funds⟩ }

/-- Add `amount` to the funds of `name`. -/
def credit (db : Tables) (name : AccountName) (amount : ℚ) : Tables :=
  db.setFunds name (db.balance name + amount)

variable {db : Tables} {name account : AccountName} {funds amount : ℚ}

theorem balance_of_find {row : StAsset}
    (found : db.userasset.find name = some row) :
    db.balance name = row.funds := by
  rw [balance, found, Option.elim_some]

theorem exists_find (member : name ∈ db.userasset.keys) :
    db.userasset.find name = some ⟨name, db.balance name⟩ := by
  obtain ⟨row, found⟩ := Option.isSome_iff_exists.mp (Table.mem_keys.mp member)
  have rowName : row.name = name := Table.key_of_find found
  rw [found, balance_of_find found, ← rowName]

theorem balance_of_notMem (absent : name ∉ db.userasset.keys) :
    db.balance name = 0 := by
  have missing : db.userasset.find name = none :=
    Table.notMem_keys.mp absent
  rw [balance, missing, Option.elim_none]

theorem find_setFunds :
    (db.setFunds name funds).userasset.find account =
      if account = name then some ⟨name, funds⟩
      else db.userasset.find account :=
  Table.find_put db.userasset ⟨name, funds⟩ account

@[simp]
theorem balance_setFunds :
    (db.setFunds name funds).balance account =
      if account = name then funds else db.balance account := by
  rw [balance, find_setFunds]
  split_ifs
  · rfl
  · rfl

theorem keys_setFunds (member : name ∈ db.userasset.keys) :
    (db.setFunds name funds).userasset.keys = db.userasset.keys := by
  have inserted :
      (db.setFunds name funds).userasset.keys =
        insert name db.userasset.keys :=
    Table.keys_put db.userasset ⟨name, funds⟩
  rw [inserted, Finset.insert_eq_of_mem member]

theorem balance_credit :
    (db.credit name amount).balance account =
      db.balance account + (Pi.single name amount : AccountName → ℚ) account := by
  rw [credit, balance_setFunds]
  by_cases same : account = name
  · rw [if_pos same, same, Pi.single_eq_same]
  · rw [if_neg same, Pi.single_eq_of_ne same, add_zero]

theorem keys_credit (member : name ∈ db.userasset.keys) :
    (db.credit name amount).userasset.keys = db.userasset.keys :=
  keys_setFunds member

end Tables

/-- The successful actions of the contract deployed at `self`. -/
inductive Effect (self : AccountName) (db : Tables) :
    Transaction → Tables → Prop
  | created {signers : List AccountName} {name : AccountName}
      {pubkey : StdString}
      (positive : 0 < name) (nonempty : 0 < pubkey.length)
      (signed : self ∈ signers)
      (freshUser : name ∉ db.userinfo.keys)
      (freshAsset : name ∉ db.userasset.keys) :
      Effect self db ⟨signers, .createacnt name pubkey⟩
        ⟨db.userinfo.put ⟨name, pubkey⟩, db.userasset.put ⟨name, 0⟩⟩
  | deleted {signers : List AccountName} {name : AccountName}
      (positive : 0 < name) (signed : self ∈ signers)
      (registered : name ∈ db.userinfo.keys) :
      Effect self db ⟨signers, .deleteacnt name⟩
        ⟨db.userinfo.erase name, db.userasset.erase name⟩
  | saved {signers : List AccountName} {name : AccountName} {funds : ℚ}
      (positive : 0 < name) (fundsPositive : 0 < funds)
      (registered : name ∈ db.userinfo.keys) (signed : name ∈ signers)
      (funded : name ∈ db.userasset.keys) :
      Effect self db ⟨signers, .modasset name funds true⟩
        (db.credit name funds)
  | withdrew {signers : List AccountName} {name : AccountName} {funds : ℚ}
      (positive : 0 < name) (fundsPositive : 0 < funds)
      (registered : name ∈ db.userinfo.keys) (signed : name ∈ signers)
      (funded : name ∈ db.userasset.keys)
      (enough : 0 ≤ db.balance name - funds - funds * feeRate)
      (owner : self ∈ db.userasset.keys) :
      Effect self db ⟨signers, .modasset name funds false⟩
        ((db.setFunds self (funds * feeRate)).setFunds name
          (db.balance name - funds - funds * feeRate))
  | transferred {signers : List AccountName}
      {sender receiver : AccountName} {funds : ℚ} {strremark : StdString}
      (positive : 0 < sender) (receiverPositive : 0 < receiver)
      (fundsPositive : 0 < funds) (signed : sender ∈ signers)
      (registered : receiver ∈ db.userinfo.keys)
      (funded : sender ∈ db.userasset.keys)
      (enough : 0 ≤ db.balance sender - transferFee funds - funds)
      (receiverFunded : receiver ∈ db.userasset.keys)
      (receiverSolvent :
        0 ≤ (db.credit sender (-(transferFee funds + funds))).balance
          receiver + funds)
      (owner : self ∈ db.userasset.keys)
      (ownerSolvent :
        0 ≤ ((db.credit sender (-(transferFee funds + funds))).credit
          receiver funds).balance self + transferFee funds) :
      Effect self db ⟨signers, .transfer sender receiver funds strremark⟩
        (((db.credit sender (-(transferFee funds + funds))).credit
          receiver funds).credit self (transferFee funds))

section Functions

variable {self name sender receiver : AccountName}
  {signers : List AccountName} {funds : ℚ} {db after : Tables}

/-- An iterator that is found in the asset table. -/
private theorem find_asset_iff {row : StAsset} :
    db.userasset.find name = some row ↔
      name ∈ db.userasset.keys ∧ row = ⟨name, db.balance name⟩ := by
  constructor
  · intro found
    have member : name ∈ db.userasset.keys :=
      Table.mem_keys.mpr (Option.isSome_iff_exists.mpr ⟨row, found⟩)
    refine ⟨member, ?_⟩
    rw [Tables.exists_find member, Option.some_inj] at found
    exact found.symm
  · intro stored
    obtain ⟨member, rfl⟩ := stored
    exact Tables.exists_find member

/-- Rewriting the row of `name` succeeds for every object with that name,
whatever funds it was read with. -/
theorem modify_asset {ass : Asset} {row : StAsset}
    (rowName : row.primaryKey = name) (member : name ∈ ass.keys) :
    ass.modify row (fun _ => ⟨name, funds⟩) = .ok (ass.put ⟨name, funds⟩) := by
  rw [← rowName, Table.mem_keys, Option.isSome_iff_exists] at member
  obtain ⟨stored, found⟩ := member
  exact MultiIndex.modify_of_find found rowName.symm

private theorem modify_read {ass : Asset} {value : ℚ}
    (member : name ∈ ass.keys) :
    ass.modify ⟨name, value⟩ (fun _ => ⟨name, funds⟩) =
      .ok (ass.put ⟨name, funds⟩) :=
  modify_asset rfl member

theorem modifyAsset_eq_ok_iff :
    modifyAsset name funds db = .ok after ↔
      name ∈ db.userasset.keys ∧ after = db.setFunds name funds := by
  simp only [modifyAsset, bind_eq_ok_iff, assertFound_eq_ok_iff,
    find_asset_iff, Except.ok.injEq]
  constructor
  · intro succeeded
    obtain ⟨row, ⟨member, rfl⟩, ass, modified, rfl⟩ := succeeded
    rw [modify_read member] at modified
    cases modified
    exact ⟨member, rfl⟩
  · intro succeeded
    obtain ⟨member, rfl⟩ := succeeded
    exact ⟨_, ⟨member, rfl⟩, _, modify_read member, rfl⟩

/-- The amount that `fundsOption` adds. -/
def signedFunds (funds : ℚ) (opt : Bool) : ℚ :=
  if opt then funds else -funds

theorem fundsOption_eq_ok_iff {opt : Bool} :
    fundsOption name funds opt db = .ok after ↔
      name ∈ db.userasset.keys ∧
        0 ≤ db.balance name + signedFunds funds opt ∧
        after = db.credit name (signedFunds funds opt) := by
  have signedSum : ∀ value : ℚ,
      (if opt then value + funds else value - funds) =
        value + signedFunds funds opt := by
    intro value
    cases opt
    · exact sub_eq_add_neg value funds
    · rfl
  simp only [fundsOption, bind_eq_ok_iff, assertFound_eq_ok_iff,
    find_asset_iff, eosioAssert_eq_ok_iff, modifyAsset_eq_ok_iff, signedSum]
  constructor
  · intro succeeded
    obtain ⟨row, ⟨member, rfl⟩, _, solvent, _, rfl⟩ := succeeded
    exact ⟨member, solvent, rfl⟩
  · intro succeeded
    obtain ⟨member, solvent, rfl⟩ := succeeded
    exact ⟨_, ⟨member, rfl⟩, (), solvent, member, rfl⟩

theorem createacnt_eq_ok_iff {pubkey : StdString} :
    createacnt self signers name pubkey db = .ok after ↔
      Effect self db ⟨signers, .createacnt name pubkey⟩ after := by
  simp only [createacnt, createAssetDataByAccount, bind_eq_ok_iff,
    eosioAssert_eq_ok_iff, requireAuth_eq_ok_iff,
    MultiIndex.emplace_eq_ok_iff, Except.ok.injEq]
  constructor
  · intro succeeded
    obtain ⟨_, positive, _, nonempty, _, signed, _, freshUser, _, ⟨_, rfl⟩, _,
      ⟨freshAsset, rfl⟩, rfl⟩ := succeeded
    exact .created positive nonempty signed
      (Table.notMem_keys.mpr freshUser) (Table.notMem_keys.mpr freshAsset)
  · intro effect
    cases effect with
    | created positive nonempty signed freshUser freshAsset =>
        have noUser : db.userinfo.find name = none :=
          Table.notMem_keys.mp freshUser
        have noAsset : db.userasset.find name = none :=
          Table.notMem_keys.mp freshAsset
        exact ⟨(), positive, (), nonempty, (), signed, (), noUser, _,
          ⟨noUser, rfl⟩, _, ⟨noAsset, rfl⟩, rfl⟩

/-- Deleting the asset row is erasing it, also when there is none. -/
theorem deleteAssetDataByAccount_eq :
    deleteAssetDataByAccount name db =
      { db with userasset := db.userasset.erase name } := by
  unfold deleteAssetDataByAccount
  cases found : db.userasset.find name with
  | some existing =>
      have existingName : existing.primaryKey = name :=
        Table.key_of_find found
      simp only [existingName]
  | none =>
      simp only [Table.erase_of_find_eq_none found]

theorem deleteacnt_eq_ok_iff :
    deleteacnt self signers name db = .ok after ↔
      Effect self db ⟨signers, .deleteacnt name⟩ after := by
  simp only [deleteacnt, deleteAssetDataByAccount_eq, bind_eq_ok_iff,
    eosioAssert_eq_ok_iff, requireAuth_eq_ok_iff, assertFound_eq_ok_iff,
    Except.ok.injEq]
  constructor
  · intro succeeded
    obtain ⟨_, positive, _, signed, existing, found, rfl⟩ := succeeded
    have existingName : existing.primaryKey = name := Table.key_of_find found
    rw [existingName]
    exact .deleted positive signed
      (Table.mem_keys.mpr (Option.isSome_iff_exists.mpr ⟨existing, found⟩))
  · intro effect
    cases effect with
    | deleted positive signed registered =>
        obtain ⟨existing, found⟩ :=
          Option.isSome_iff_exists.mp (Table.mem_keys.mp registered)
        have existingName : existing.primaryKey = name :=
          Table.key_of_find found
        exact ⟨(), positive, (), signed, existing, found, by rw [existingName]⟩

/-- An iterator that is found in the user table. -/
private theorem exists_user_iff {P : Prop} :
    (∃ user, db.userinfo.find name = some user ∧ P) ↔
      name ∈ db.userinfo.keys ∧ P := by
  rw [Table.mem_keys, Option.isSome_iff_exists, exists_and_right]

theorem modasset_save_eq_ok_iff :
    modasset self signers name funds true db = .ok after ↔
      Effect self db ⟨signers, .modasset name funds true⟩ after := by
  simp only [modasset, bind_eq_ok_iff, eosioAssert_eq_ok_iff,
    requireAuth_eq_ok_iff, assertFound_eq_ok_iff, exists_user_iff,
    find_asset_iff, if_true, Except.ok.injEq]
  constructor
  · intro succeeded
    obtain ⟨_, positive, _, fundsPositive, registered, _, signed, _, ⟨funded,
      rfl⟩, _, rfl, ass, modified, rfl⟩ := succeeded
    rw [modify_read funded] at modified
    cases modified
    exact .saved positive fundsPositive registered signed funded
  · intro effect
    cases effect with
    | saved positive fundsPositive registered signed funded =>
        exact ⟨(), positive, (), fundsPositive, registered, (), signed, _,
          ⟨funded, rfl⟩, _, rfl, _, modify_read funded, rfl⟩

/-- The row of `self` is written first, then the row of `name`, which may be
the same one. -/
theorem modasset_withdraw_eq_ok_iff :
    modasset self signers name funds false db = .ok after ↔
      Effect self db ⟨signers, .modasset name funds false⟩ after := by
  simp only [modasset, bind_eq_ok_iff, eosioAssert_eq_ok_iff,
    requireAuth_eq_ok_iff, assertFound_eq_ok_iff, exists_user_iff,
    find_asset_iff, Bool.false_eq_true, if_false, Except.ok.injEq]
  have stillFunded : ∀ {ass : Asset}, name ∈ ass.keys →
      name ∈ (ass.put ⟨self, funds * feeRate⟩).keys := by
    intro ass member
    rw [Table.keys_put]
    exact Finset.mem_insert_of_mem member
  constructor
  · intro succeeded
    obtain ⟨_, positive, _, fundsPositive, registered, _, signed, _, ⟨funded,
      rfl⟩, _, enough, _, ⟨owner, rfl⟩, _, feeTaken, _, rfl, _, modified, rfl⟩
      := succeeded
    rw [modify_read owner] at feeTaken
    cases feeTaken
    rw [modify_read (stillFunded funded)] at modified
    cases modified
    exact .withdrew positive fundsPositive registered signed funded enough owner
  · intro effect
    cases effect with
    | withdrew positive fundsPositive registered signed funded enough owner =>
        exact ⟨(), positive, (), fundsPositive, registered, (), signed, _,
          ⟨funded, rfl⟩, (), enough, _, ⟨owner, rfl⟩, _, modify_read owner,
          _, rfl, _, modify_read (stillFunded funded), rfl⟩

theorem transfer_eq_ok_iff {strremark : StdString} :
    transfer self signers sender receiver funds strremark db = .ok after ↔
      Effect self db ⟨signers, .transfer sender receiver funds strremark⟩
        after := by
  have registered_iff :
      isExistAccount receiver db = true ↔ receiver ∈ db.userinfo.keys :=
    Table.mem_keys.symm
  simp only [transfer, bind_eq_ok_iff, eosioAssert_eq_ok_iff,
    requireAuth_eq_ok_iff, assertFound_eq_ok_iff, registered_iff,
    find_asset_iff, fundsOption_eq_ok_iff]
  constructor
  · intro succeeded
    obtain ⟨_, positive, _, receiverPositive, _, fundsPositive, _, signed, _,
      registered, _, ⟨funded, rfl⟩, _, enough, _, ⟨_, _, rfl⟩, _,
      ⟨receiverFunded, _⟩, _, ⟨_, receiverSolvent, rfl⟩, _, ⟨owner, _⟩, _,
      ownerSolvent, rfl⟩ := succeeded
    have receiverMember : receiver ∈ db.userasset.keys := by
      rwa [Tables.keys_credit funded] at receiverFunded
    have ownerMember : self ∈ db.userasset.keys := by
      rwa [Tables.keys_credit receiverFunded, Tables.keys_credit funded]
        at owner
    exact .transferred positive receiverPositive fundsPositive signed
      registered funded enough receiverMember receiverSolvent ownerMember
      ownerSolvent
  · intro effect
    cases effect with
    | transferred positive receiverPositive fundsPositive signed registered
        funded enough receiverMember receiverSolvent ownerMember
        ownerSolvent =>
        have covered :
            0 ≤ db.balance sender + -(transferFee funds + funds) := by
          linarith
        have receiverFunded : receiver ∈
            (db.credit sender (-(transferFee funds + funds))).userasset.keys := by
          rwa [Tables.keys_credit funded]
        have owner : self ∈
            ((db.credit sender (-(transferFee funds + funds))).credit
              receiver funds).userasset.keys := by
          rwa [Tables.keys_credit receiverFunded, Tables.keys_credit funded]
        exact ⟨(), positive, (), receiverPositive, (), fundsPositive, (),
          signed, (), registered, _, ⟨funded, rfl⟩, (), enough, _,
          ⟨funded, covered, rfl⟩, _, ⟨receiverFunded, rfl⟩, _,
          ⟨receiverFunded, receiverSolvent, rfl⟩, _, ⟨owner, rfl⟩, owner,
          ownerSolvent, rfl⟩

/-- An action succeeds exactly with the effects of `Effect`. -/
theorem apply_eq_ok_iff {tx : Transaction} :
    apply self db tx = .ok after ↔ Effect self db tx after := by
  obtain ⟨signers, action⟩ := tx
  cases action with
  | createacnt name pubkey => exact createacnt_eq_ok_iff
  | deleteacnt name => exact deleteacnt_eq_ok_iff
  | modasset name funds bsaving =>
      cases bsaving with
      | true => exact modasset_save_eq_ok_iff
      | false => exact modasset_withdraw_eq_ok_iff
  | transfer sender receiver funds strremark => exact transfer_eq_ok_iff

/-- A withdrawal writes its fee to the row of `self`, which has to exist. -/
theorem self_mem_of_withdrawal {tx : Transaction}
    (done : apply self db tx = .ok after)
    (isWithdrawal : tx.action = .modasset name funds false) :
    self ∈ db.userasset.keys := by
  cases apply_eq_ok_iff.mp done with
  | withdrew _ _ _ _ _ _ owner => exact owner
  | created => cases isWithdrawal
  | deleted => cases isWithdrawal
  | saved => cases isWithdrawal
  | transferred => cases isWithdrawal

end Functions

end Bright.Keephand

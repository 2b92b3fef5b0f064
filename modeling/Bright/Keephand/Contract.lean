import Bright.Eosio.Chain
import Mathlib.Data.Rat.Defs
import Mathlib.Algebra.Order.Ring.Rat

/-!
# The keephand contract

`keephand` holds funds for registered accounts.  `userinfo` registers an
account with its public key, `userasset` holds the funds of each account, and
the row of the contract account `self` collects the fees.

Each function of `keephand.cpp` is one definition here, over the tables as
they are when it is called.  Every function opens its own table handles, so
passing the tables along is all the state there is.  `funds` is a `double` in
the source and a rational number here.
-/

namespace Bright.Keephand

open Bright.Lib Bright.Eosio

structure StUserinfo where
  name : AccountName
  pubkey : StdString
  deriving DecidableEq, Repr

def StUserinfo.primaryKey (row : StUserinfo) : UInt64 := row.name

structure StAsset where
  name : AccountName
  funds : ℚ
  deriving DecidableEq, Repr

def StAsset.primaryKey (row : StAsset) : UInt64 := row.name

abbrev User := MultiIndex StUserinfo.primaryKey

abbrev Asset := MultiIndex StAsset.primaryKey

/-- The two tables of the contract. -/
@[ext]
structure Tables where
  userinfo : User
  userasset : Asset
  deriving DecidableEq

def Tables.empty : Tables where
  userinfo := Table.empty
  userasset := Table.empty

/-- `fee_rate`, the fee charged for each unit of funds. -/
def feeRate : ℚ := 1 / 100

/-- `fee_min`, the smallest fee of a transfer. -/
def feeMin : ℚ := 1 / 100

def createAssetDataByAccount (name : AccountName) (db : Tables) :
    Except Abort Tables := do
  let ass ← db.userasset.emplace ⟨name, 0⟩
  .ok { db with userasset := ass }

def deleteAssetDataByAccount (name : AccountName) (db : Tables) : Tables :=
  match db.userasset.find name with
  | some existing =>
      { db with userasset := db.userasset.erase existing.primaryKey }
  | none => db

def isExistAccount (name : AccountName) (db : Tables) : Bool :=
  (db.userinfo.find name).isSome

def modifyAsset (name : AccountName) (funds : ℚ) (db : Tables) :
    Except Abort Tables := do
  let idx ← assertFound (db.userasset.find name)
    "fund name failed on asset table. \n"
  let ass ← db.userasset.modify idx fun a =>
    { a with name := name, funds := funds }
  .ok { db with userasset := ass }

/-- `opt` is `true` to add `funds` and `false` to subtract them. -/
def fundsOption (name : AccountName) (funds : ℚ) (opt : Bool) (db : Tables) :
    Except Abort Tables := do
  let idx ← assertFound (db.userasset.find name) "fund name failed. \n"
  let userAsset := if opt then idx.funds + funds else idx.funds - funds
  eosioAssert (0 ≤ userAsset) "asset not enought. \n"
  modifyAsset name userAsset db

section Actions

variable (self : AccountName) (signers : List AccountName)

def createacnt (name : AccountName) (pubkey : StdString) (db : Tables) :
    Except Abort Tables := do
  eosioAssert (0 < name) "name empty \n"
  eosioAssert (0 < pubkey.length) "pubkey empty \n"
  requireAuth signers self
  eosioAssert (db.userinfo.find name = none) "name already exists\n"
  let actns ← db.userinfo.emplace ⟨name, pubkey⟩
  createAssetDataByAccount name { db with userinfo := actns }

def deleteacnt (name : AccountName) (db : Tables) : Except Abort Tables := do
  eosioAssert (0 < name) "name empty \n"
  requireAuth signers self
  let existing ← assertFound (db.userinfo.find name) "name not found \n"
  let acnts := db.userinfo.erase existing.primaryKey
  .ok (deleteAssetDataByAccount name { db with userinfo := acnts })

/-- `bsaving` is `true` to save and `false` to withdraw. -/
def modasset (name : AccountName) (funds : ℚ) (bsaving : Bool) (db : Tables) :
    Except Abort Tables := do
  eosioAssert (0 < name) "name empty \n"
  eosioAssert (0 < funds) "funds input error"
  let _ ← assertFound (db.userinfo.find name) "name not foud on userinfo"
  requireAuth signers name
  -- The source tests the iterator once more after this assertion.
  let existingAsset ← assertFound (db.userasset.find name)
    "name not fund on asset"
  let (opFunds, ass) ←
    if bsaving then
      .ok (existingAsset.funds + funds, db.userasset)
    else do
      let opFunds := existingAsset.funds - funds - funds * feeRate
      eosioAssert (0 ≤ opFunds) "not enough asset.\n"
      let existingOwner ← assertFound (db.userasset.find self)
        " owner user not fund.\n"
      -- The owner row is assigned the fee; what it held before is not added.
      let ass ← db.userasset.modify existingOwner fun d =>
        { d with name := self, funds := funds * feeRate }
      .ok (opFunds, ass)
  let ass ← ass.modify existingAsset fun d =>
    { d with name := name, funds := opFunds }
  .ok { db with userasset := ass }

/-- The fee of a transfer: the rate, but at least `feeMin`. -/
def transferFee (funds : ℚ) : ℚ :=
  if funds * feeRate < feeMin then feeMin else funds * feeRate

/-- `sender` and `receiver` are the parameters `from` and `to`. -/
def transfer (sender receiver : AccountName) (funds : ℚ)
    (_strremark : StdString) (db : Tables) : Except Abort Tables := do
  eosioAssert (0 < sender) "from empty \n"
  eosioAssert (0 < receiver) "to empty \n"
  eosioAssert (0 < funds) "funds error \n"
  requireAuth signers sender
  eosioAssert (isExistAccount receiver db)
    "fund receiver user failed on userinfo table. \n"
  let existingFrom ← assertFound (db.userasset.find sender)
    "fund sender failed.\n"
  let fee := transferFee funds
  let assetSender := existingFrom.funds - fee - funds
  eosioAssert (0 ≤ assetSender) " sender not enough asset."
  let db ← fundsOption sender (fee + funds) false db
  let _ ← assertFound (db.userasset.find receiver)
    "fund receiver failed on asset table\n"
  let db ← fundsOption receiver funds true db
  let _ ← assertFound (db.userasset.find self)
    "fund self failed on asset table\n"
  fundsOption self fee true db

end Actions

inductive Action where
  | createacnt (name : AccountName) (pubkey : StdString)
  | deleteacnt (name : AccountName)
  | modasset (name : AccountName) (funds : ℚ) (bsaving : Bool)
  | transfer (sender receiver : AccountName) (funds : ℚ)
      (strremark : StdString)
  deriving DecidableEq, Repr

/-- An action together with the accounts that authorise it. -/
structure Transaction where
  signers : List AccountName
  action : Action
  deriving DecidableEq, Repr

/-- The dispatcher of the contract deployed at the account `self`. -/
def apply (self : AccountName) (db : Tables) (tx : Transaction) :
    Except Abort Tables :=
  match tx.action with
  | .createacnt name pubkey => createacnt self tx.signers name pubkey db
  | .deleteacnt name => deleteacnt self tx.signers name db
  | .modasset name funds bsaving =>
      modasset self tx.signers name funds bsaving db
  | .transfer sender receiver funds strremark =>
      transfer self tx.signers sender receiver funds strremark db

/-- The funds that the asset table holds for `account`, zero without a row. -/
def Tables.balance (db : Tables) (account : AccountName) : ℚ :=
  (db.userasset.find account).elim 0 StAsset.funds

/-- The sum of all `userasset.funds`. -/
def Tables.total (db : Tables) : ℚ :=
  db.userasset.sumBy StAsset.funds

end Bright.Keephand

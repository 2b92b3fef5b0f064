import Bright.Name.StringToName

/-!
# The award contract

`award` registers nodes and keeps the metrics of each node.  `nodeinfo` holds
the nodes under their account names, `deposit` holds the metrics under the
64-bit codes of the public keys.

Both tables have further indices.  `get_index<N(name)>` of `nodeinfo` and
`get_index<N(nodepubkey)>` of `deposit` are ordered by the primary key itself,
`get_index<N(pubkey)>` of `nodeinfo` by the code of the public key.  `find` on
an index is `Table.findBy` on its column.
-/

namespace Bright.Award

open Bright.Lib Bright.Eosio Bright.Name

structure StNodeinfo where
  name : AccountName
  pubkey : StdString
  deriving DecidableEq, Repr

namespace StNodeinfo

def getName (row : StNodeinfo) : AccountName := row.name

def getPubkey (row : StNodeinfo) : UInt64 := stringToName row.pubkey

def primaryKey (row : StNodeinfo) : UInt64 := row.name

end StNodeinfo

structure StDeposit where
  nodepubkey : StdString
  score : UInt64
  cpu : UInt64
  disk : UInt64
  net : UInt64
  deriving DecidableEq, Repr

namespace StDeposit

def primaryKey (row : StDeposit) : UInt64 := stringToName row.nodepubkey

def getNodepubkey (row : StDeposit) : UInt64 := stringToName row.nodepubkey

end StDeposit

abbrev Node := MultiIndex StNodeinfo.primaryKey

abbrev Deposit := MultiIndex StDeposit.primaryKey

/-- The two tables of the contract. -/
@[ext]
structure Tables where
  nodeinfo : Node
  deposit : Deposit
  deriving DecidableEq

def Tables.empty : Tables where
  nodeinfo := Table.empty
  deposit := Table.empty

def createDepositDataByAccount (pubkey : StdString) (db : Tables) :
    Except Abort Tables := do
  let sit ← db.deposit.emplace ⟨pubkey, 0, 0, 0, 0⟩
  .ok { db with deposit := sit }

def deleteDepositDataByAccount (pubkey : StdString) (db : Tables) : Tables :=
  match db.deposit.findBy StDeposit.getNodepubkey (stringToName pubkey) with
  | some existDepositPubkey =>
      { db with deposit := db.deposit.erase existDepositPubkey.primaryKey }
  | none => db

section Actions

variable (self : AccountName) (signers : List AccountName)

/-- `hello` only prints. -/
def hello (_user : AccountName) (db : Tables) : Except Abort Tables :=
  .ok db

/-- `issue` only prints. -/
def issue (db : Tables) : Except Abort Tables :=
  .ok db

def createacnt (name : AccountName) (pubkey : StdString) (db : Tables) :
    Except Abort Tables := do
  eosioAssert (0 < name) "name empty \n"
  eosioAssert (0 < pubkey.length) "pubkey empty \n"
  requireAuth signers self
  eosioAssert (db.nodeinfo.find name = none) "name already exists\n"
  let actns ← db.nodeinfo.emplace ⟨name, pubkey⟩
  createDepositDataByAccount pubkey { db with nodeinfo := actns }

def deleteacnt (name : AccountName) (pubkey : StdString) (db : Tables) :
    Except Abort Tables := do
  eosioAssert (0 < name) "name empty \n"
  eosioAssert (0 < pubkey.length) "pubkey empty \n"
  requireAuth signers self
  let existing ← assertFound (db.nodeinfo.findBy StNodeinfo.getName name)
    "name not found \n"
  eosioAssert (existing.pubkey = pubkey) "pubkey wrong \n"
  let idx := db.nodeinfo.erase existing.primaryKey
  .ok (deleteDepositDataByAccount pubkey { db with nodeinfo := idx })

def moddeposit (pubkey : StdString) (score cpu disk net : UInt64)
    (db : Tables) : Except Abort Tables := do
  eosioAssert (0 < pubkey.length) "pubkey empty \n"
  let existNodePubkey ← assertFound
    (db.nodeinfo.findBy StNodeinfo.getPubkey (stringToName pubkey))
    "pubkey not foud on accounts"
  requireAuth signers existNodePubkey.name
  match db.deposit.findBy StDeposit.getNodepubkey (stringToName pubkey) with
  | some existDepositPubkey =>
      let sit ← db.deposit.modify existDepositPubkey fun d =>
        { d with score := score, cpu := cpu, disk := disk, net := net }
      .ok { db with deposit := sit }
  | none => .ok db

end Actions

inductive Action where
  | hello (user : AccountName)
  | createacnt (name : AccountName) (pubkey : StdString)
  | deleteacnt (name : AccountName) (pubkey : StdString)
  | moddeposit (pubkey : StdString) (score cpu disk net : UInt64)
  | issue
  deriving DecidableEq, Repr

/-- An action together with the accounts that authorise it. -/
structure Transaction where
  signers : List AccountName
  action : Action
  deriving DecidableEq, Repr

/-- The dispatcher of the contract deployed at the account `self`. -/
def apply (self : AccountName) (db : Tables) (tx : Transaction) :
    Except Abort Tables :=
  match tx.action with
  | .hello user => hello user db
  | .createacnt name pubkey => createacnt self tx.signers name pubkey db
  | .deleteacnt name pubkey => deleteacnt self tx.signers name pubkey db
  | .moddeposit pubkey score cpu disk net =>
      moddeposit tx.signers pubkey score cpu disk net db
  | .issue => issue db

/-- The successful actions of a run from empty tables. -/
abbrev history (self : AccountName) (txs : List Transaction) :
    List (Transition Tables Transaction) :=
  trace (apply self) Tables.empty txs

end Bright.Award

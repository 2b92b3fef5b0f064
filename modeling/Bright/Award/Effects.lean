import Bright.Award.Contract

/-!
# What a successful action does

Registering a node writes a row of zeros for its public key, removing it erases
both rows, and a report replaces the metrics stored under the code of its
public key.  `apply_eq_ok_iff` shows that `Effect` lists exactly the successful
actions, so that the rest of the development never unfolds the contract.
-/

namespace Bright.Award

open Bright.Lib Bright.Eosio Bright.Name

/-- The four values of a report. -/
structure Metrics where
  score : UInt64
  cpu : UInt64
  disk : UInt64
  net : UInt64
  deriving DecidableEq, Repr

def Metrics.zero : Metrics := ⟨0, 0, 0, 0⟩

def StDeposit.metrics (row : StDeposit) : Metrics :=
  ⟨row.score, row.cpu, row.disk, row.net⟩

def StDeposit.withMetrics (row : StDeposit) (metrics : Metrics) : StDeposit :=
  ⟨row.nodepubkey, metrics.score, metrics.cpu, metrics.disk, metrics.net⟩

namespace Tables

/-- Add a node with zero metrics. -/
def register (db : Tables) (name : AccountName) (pubkey : StdString) :
    Tables where
  nodeinfo := db.nodeinfo.put ⟨name, pubkey⟩
  deposit := db.deposit.put ⟨pubkey, 0, 0, 0, 0⟩

/-- Remove a node and its metrics. -/
def unregister (db : Tables) (name : AccountName) (pubkey : StdString) :
    Tables where
  nodeinfo := db.nodeinfo.erase name
  deposit := db.deposit.erase (stringToName pubkey)

/-- Replace the metrics stored under a code, if there are any. -/
def report (db : Tables) (code : UInt64) (metrics : Metrics) : Tables :=
  match db.deposit.find code with
  | some row => { db with deposit := db.deposit.put (row.withMetrics metrics) }
  | none => db

variable {db : Tables} {name : AccountName} {pubkey : StdString}
  {code other : UInt64} {metrics : Metrics}

theorem find_nodeinfo_register (key : AccountName) :
    (db.register name pubkey).nodeinfo.find key =
      if key = name then some ⟨name, pubkey⟩ else db.nodeinfo.find key :=
  Table.find_put db.nodeinfo ⟨name, pubkey⟩ key

theorem find_deposit_register :
    (db.register name pubkey).deposit.find code =
      if code = stringToName pubkey then some ⟨pubkey, 0, 0, 0, 0⟩
      else db.deposit.find code :=
  Table.find_put db.deposit ⟨pubkey, 0, 0, 0, 0⟩ code

theorem find_nodeinfo_unregister (key : AccountName) :
    (db.unregister name pubkey).nodeinfo.find key =
      if key = name then none else db.nodeinfo.find key :=
  Table.find_erase db.nodeinfo name key

theorem find_deposit_unregister :
    (db.unregister name pubkey).deposit.find code =
      if code = stringToName pubkey then none else db.deposit.find code :=
  Table.find_erase db.deposit (stringToName pubkey) code

@[simp]
theorem nodeinfo_report : (db.report code metrics).nodeinfo = db.nodeinfo := by
  unfold report
  split
  · rfl
  · rfl

theorem find_deposit_report :
    (db.report code metrics).deposit.find other =
      if other = code then
        (db.deposit.find code).map fun row => row.withMetrics metrics
      else
        db.deposit.find other := by
  unfold report
  cases found : db.deposit.find code with
  | none =>
      split_ifs with same
      · rw [same, found, Option.map_none]
      · rfl
  | some row =>
      have rowCode : row.primaryKey = code := Table.key_of_find found
      have writtenCode : (row.withMetrics metrics).primaryKey = code := rowCode
      rw [Table.find_put, writtenCode, Option.map_some]

end Tables

/-- The successful actions of the contract deployed at `self`. -/
inductive Effect (self : AccountName) (db : Tables) :
    Transaction → Tables → Prop
  | greeted {signers : List AccountName} {user : AccountName} :
      Effect self db ⟨signers, .hello user⟩ db
  | issued {signers : List AccountName} :
      Effect self db ⟨signers, .issue⟩ db
  | created {signers : List AccountName} {name : AccountName}
      {pubkey : StdString}
      (positive : 0 < name) (nonempty : 0 < pubkey.length)
      (signed : self ∈ signers) (freshName : db.nodeinfo.find name = none)
      (freshCode : db.deposit.find (stringToName pubkey) = none) :
      Effect self db ⟨signers, .createacnt name pubkey⟩
        (db.register name pubkey)
  | deleted {signers : List AccountName} {name : AccountName}
      {pubkey : StdString}
      (positive : 0 < name) (nonempty : 0 < pubkey.length)
      (signed : self ∈ signers)
      (registered : db.nodeinfo.find name = some ⟨name, pubkey⟩) :
      Effect self db ⟨signers, .deleteacnt name pubkey⟩
        (db.unregister name pubkey)
  | reported {signers : List AccountName} {pubkey : StdString}
      {score cpu disk net : UInt64} {node : StNodeinfo}
      (nonempty : 0 < pubkey.length)
      (found : db.nodeinfo.findBy StNodeinfo.getPubkey (stringToName pubkey) =
        some node)
      (signed : node.name ∈ signers) :
      Effect self db ⟨signers, .moddeposit pubkey score cpu disk net⟩
        (db.report (stringToName pubkey) ⟨score, cpu, disk, net⟩)

section Functions

variable {self name : AccountName} {signers : List AccountName}
  {pubkey : StdString} {db after : Tables}

/-- The index on the account name is ordered by the primary key itself. -/
theorem findBy_getName (nodeinfo : Node) (name : AccountName) :
    nodeinfo.findBy StNodeinfo.getName name = nodeinfo.find name := rfl

/-- So is the index on the public key of a deposit. -/
theorem findBy_getNodepubkey (deposit : Deposit) (code : UInt64) :
    deposit.findBy StDeposit.getNodepubkey code = deposit.find code := rfl

theorem createacnt_eq_ok_iff :
    createacnt self signers name pubkey db = .ok after ↔
      Effect self db ⟨signers, .createacnt name pubkey⟩ after := by
  simp only [createacnt, createDepositDataByAccount, bind_eq_ok_iff,
    eosioAssert_eq_ok_iff, requireAuth_eq_ok_iff, MultiIndex.emplace_eq_ok_iff,
    Except.ok.injEq]
  constructor
  · intro succeeded
    obtain ⟨_, positive, _, nonempty, _, signed, _, freshName, _, ⟨_, rfl⟩, _,
      ⟨freshCode, rfl⟩, rfl⟩ := succeeded
    exact .created positive nonempty signed freshName freshCode
  · intro effect
    cases effect with
    | created positive nonempty signed freshName freshCode =>
        exact ⟨(), positive, (), nonempty, (), signed, (), freshName, _,
          ⟨freshName, rfl⟩, _, ⟨freshCode, rfl⟩, rfl⟩

theorem deleteDepositDataByAccount_eq :
    deleteDepositDataByAccount pubkey db =
      { db with deposit := db.deposit.erase (stringToName pubkey) } := by
  unfold deleteDepositDataByAccount
  rw [findBy_getNodepubkey]
  cases found : db.deposit.find (stringToName pubkey) with
  | some existing =>
      have existingCode : existing.primaryKey = stringToName pubkey :=
        Table.key_of_find found
      simp only [existingCode]
  | none =>
      simp only [Table.erase_of_find_eq_none found]

theorem deleteacnt_eq_ok_iff :
    deleteacnt self signers name pubkey db = .ok after ↔
      Effect self db ⟨signers, .deleteacnt name pubkey⟩ after := by
  simp only [deleteacnt, deleteDepositDataByAccount_eq, findBy_getName,
    bind_eq_ok_iff, eosioAssert_eq_ok_iff, requireAuth_eq_ok_iff,
    assertFound_eq_ok_iff, Except.ok.injEq]
  constructor
  · intro succeeded
    obtain ⟨_, positive, _, nonempty, _, signed, existing, found, _, rfl, rfl⟩
      := succeeded
    have existingName : existing.name = name := Table.key_of_find found
    have registered :
        db.nodeinfo.find name = some ⟨name, existing.pubkey⟩ := by
      rw [found, ← existingName]
    have erased : existing.primaryKey = name := existingName
    rw [erased]
    exact .deleted positive nonempty signed registered
  · intro effect
    cases effect with
    | deleted positive nonempty signed registered =>
        exact ⟨(), positive, (), nonempty, (), signed, _, registered, (), rfl,
          rfl⟩

/-- Updating the four values of a row keeps its key. -/
private theorem modify_metrics {row : StDeposit} {code : UInt64}
    {score cpu disk net : UInt64} (found : db.deposit.find code = some row) :
    db.deposit.modify row (fun d =>
        { d with score := score, cpu := cpu, disk := disk, net := net }) =
      .ok (db.deposit.put (row.withMetrics ⟨score, cpu, disk, net⟩)) := by
  have rowCode : row.primaryKey = code := Table.key_of_find found
  have stored : db.deposit.find row.primaryKey = some row := by
    rw [rowCode, found]
  apply MultiIndex.modify_of_find stored
  rfl

theorem moddeposit_eq_ok_iff {score cpu disk net : UInt64} :
    moddeposit signers pubkey score cpu disk net db = .ok after ↔
      Effect self db ⟨signers, .moddeposit pubkey score cpu disk net⟩ after := by
  have written :
      moddeposit signers pubkey score cpu disk net db = .ok after ↔
        0 < pubkey.length ∧
          ∃ node, db.nodeinfo.findBy StNodeinfo.getPubkey
              (stringToName pubkey) = some node ∧
            node.name ∈ signers ∧
            db.report (stringToName pubkey) ⟨score, cpu, disk, net⟩ = after := by
    cases found : db.deposit.find (stringToName pubkey) with
    | none =>
        simp [moddeposit, Tables.report, findBy_getNodepubkey, found,
          bind_eq_ok_iff]
    | some row =>
        simp [moddeposit, Tables.report, findBy_getNodepubkey, found,
          modify_metrics found, bind_eq_ok_iff]
  rw [written]
  constructor
  · intro succeeded
    obtain ⟨nonempty, node, found, signed, rfl⟩ := succeeded
    exact .reported nonempty found signed
  · intro effect
    cases effect with
    | reported nonempty found signed => exact ⟨nonempty, _, found, signed, rfl⟩

/-- An action succeeds exactly with the effects of `Effect`. -/
theorem apply_eq_ok_iff {tx : Transaction} :
    apply self db tx = .ok after ↔ Effect self db tx after := by
  have unchanged : ∀ {action : Action}, Effect self db ⟨tx.signers, action⟩ db →
      (∀ after, Effect self db ⟨tx.signers, action⟩ after → after = db) →
      ((.ok db : Except Abort Tables) = .ok after ↔
        Effect self db ⟨tx.signers, action⟩ after) := by
    intro action effect only
    constructor
    · intro same
      cases same
      exact effect
    · intro effect
      rw [only after effect]
  obtain ⟨signers, action⟩ := tx
  cases action with
  | hello user =>
      apply unchanged .greeted
      intro after effect
      cases effect
      rfl
  | issue =>
      apply unchanged .issued
      intro after effect
      cases effect
      rfl
  | createacnt name pubkey => exact createacnt_eq_ok_iff
  | deleteacnt name pubkey => exact deleteacnt_eq_ok_iff
  | moddeposit pubkey score cpu disk net => exact moddeposit_eq_ok_iff

end Functions

end Bright.Award

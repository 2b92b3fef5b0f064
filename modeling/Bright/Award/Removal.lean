import Bright.Award.Registry

/-!
# A removed node leaves no trace

A run that neither names the account of a node nor uses a public key with its
code acts on the other rows only, so it runs alike with and without the two
rows of that node (`apply_with_node`).  Removing the node at the end erases
these two rows.
-/

namespace Bright.Award

open Bright.Lib Bright.Eosio Bright.Name

/-- Whether an action leaves the name `name` and the code of `pubkey` alone. -/
def Action.avoids (name : AccountName) (pubkey : StdString) : Action → Bool
  | .createacnt other key =>
      other ≠ name ∧ stringToName key ≠ stringToName pubkey
  | .deleteacnt other key =>
      other ≠ name ∧ stringToName key ≠ stringToName pubkey
  | .moddeposit key _ _ _ _ => stringToName key ≠ stringToName pubkey
  | _ => true

/-- `withNode` is `db` with a freshly registered node. -/
structure Extends (name : AccountName) (pubkey : StdString)
    (withNode db : Tables) : Prop where
  registered : withNode = db.register name pubkey
  freshName : db.nodeinfo.find name = none
  freshCode : db.deposit.find (stringToName pubkey) = none

variable {self name other : AccountName} {pubkey key : StdString}
  {db withNode after : Tables} {tx : Transaction}

/-! ### Writes for other nodes commute with a registration -/

theorem register_register_comm (otherName : other ≠ name)
    (otherCode : stringToName key ≠ stringToName pubkey) :
    (db.register name pubkey).register other key =
      (db.register other key).register name pubkey := by
  apply Tables.ext
  · exact Table.put_put_comm db.nodeinfo otherName.symm
  · exact Table.put_put_comm db.deposit otherCode.symm

theorem unregister_register_comm (otherName : other ≠ name)
    (otherCode : stringToName key ≠ stringToName pubkey) :
    (db.register name pubkey).unregister other key =
      (db.unregister other key).register name pubkey := by
  apply Tables.ext
  · exact Table.put_erase_comm db.nodeinfo otherName.symm
  · exact Table.put_erase_comm db.deposit otherCode.symm

theorem report_register_comm {metrics : Metrics}
    (otherCode : stringToName key ≠ stringToName pubkey) :
    (db.register name pubkey).report (stringToName key) metrics =
      (db.report (stringToName key) metrics).register name pubkey := by
  have lookup :
      (db.register name pubkey).deposit.find (stringToName key) =
        db.deposit.find (stringToName key) := by
    rw [Tables.find_deposit_register, if_neg otherCode]
  cases found : db.deposit.find (stringToName key) with
  | none => simp only [Tables.report, lookup, found]
  | some row =>
      have rowCode : row.primaryKey = stringToName key :=
        Table.key_of_find found
      have differs :
          StDeposit.primaryKey ⟨pubkey, 0, 0, 0, 0⟩ ≠
            (row.withMetrics metrics).primaryKey := by
        intro same
        exact otherCode (rowCode.symm.trans same.symm)
      have exchanged :
          (db.deposit.put ⟨pubkey, 0, 0, 0, 0⟩).put (row.withMetrics metrics) =
            (db.deposit.put (row.withMetrics metrics)).put
              ⟨pubkey, 0, 0, 0, 0⟩ :=
        Table.put_put_comm db.deposit differs
      simp only [Tables.report, lookup, found]
      exact Tables.ext rfl exchanged

/-- Removing a node just registered restores the tables. -/
theorem unregister_register (freshName : db.nodeinfo.find name = none)
    (freshCode : db.deposit.find (stringToName pubkey) = none) :
    (db.register name pubkey).unregister name pubkey = db := by
  apply Tables.ext
  · exact Table.erase_put_of_fresh db.nodeinfo rfl freshName
  · exact Table.erase_put_of_fresh db.deposit rfl freshCode

/-! ### Runs with and without the node -/

/-- Only the rows of the node are found differently. -/
private theorem Extends.find_nodeinfo
    (extended : Extends name pubkey withNode db) (otherName : other ≠ name) :
    withNode.nodeinfo.find other = db.nodeinfo.find other := by
  rw [extended.registered, Tables.find_nodeinfo_register, if_neg otherName]

private theorem Extends.find_deposit
    (extended : Extends name pubkey withNode db)
    (otherCode : stringToName key ≠ stringToName pubkey) :
    withNode.deposit.find (stringToName key) =
      db.deposit.find (stringToName key) := by
  rw [extended.registered, Tables.find_deposit_register, if_neg otherCode]

private theorem Extends.findBy_getPubkey
    (extended : Extends name pubkey withNode db)
    (otherCode : stringToName key ≠ stringToName pubkey) :
    withNode.nodeinfo.findBy StNodeinfo.getPubkey (stringToName key) =
      db.nodeinfo.findBy StNodeinfo.getPubkey (stringToName key) := by
  rw [extended.registered]
  exact Table.findBy_put_of_ne extended.freshName otherCode.symm

/-- An action that succeeds with the node succeeds without it, and the two
results differ by the node again. -/
theorem apply_with_node (extended : Extends name pubkey withNode db)
    (avoids : tx.action.avoids name pubkey)
    (done : apply self withNode tx = .ok after) :
    ∃ next, apply self db tx = .ok next ∧ Extends name pubkey after next := by
  cases apply_eq_ok_iff.mp done with
  | greeted => exact ⟨db, apply_eq_ok_iff.mpr .greeted, extended⟩
  | issued => exact ⟨db, apply_eq_ok_iff.mpr .issued, extended⟩
  | @created signers created createdKey positive nonempty signed freshName
      freshCode =>
      obtain ⟨otherName, otherCode⟩ := of_decide_eq_true avoids
      rw [extended.find_nodeinfo otherName] at freshName
      rw [extended.find_deposit otherCode] at freshCode
      have effect :
          Effect self db ⟨signers, .createacnt created createdKey⟩
            (db.register created createdKey) :=
        .created positive nonempty signed freshName freshCode
      refine ⟨_, apply_eq_ok_iff.mpr effect, ?_, ?_, ?_⟩
      · rw [extended.registered, register_register_comm otherName otherCode]
      · rw [Tables.find_nodeinfo_register, if_neg otherName.symm]
        exact extended.freshName
      · rw [Tables.find_deposit_register, if_neg otherCode.symm]
        exact extended.freshCode
  | @deleted signers deleted deletedKey positive nonempty signed registered =>
      obtain ⟨otherName, otherCode⟩ := of_decide_eq_true avoids
      rw [extended.find_nodeinfo otherName] at registered
      have effect :
          Effect self db ⟨signers, .deleteacnt deleted deletedKey⟩
            (db.unregister deleted deletedKey) :=
        .deleted positive nonempty signed registered
      refine ⟨_, apply_eq_ok_iff.mpr effect, ?_, ?_, ?_⟩
      · rw [extended.registered, unregister_register_comm otherName otherCode]
      · rw [Tables.find_nodeinfo_unregister, if_neg otherName.symm]
        exact extended.freshName
      · rw [Tables.find_deposit_unregister, if_neg otherCode.symm]
        exact extended.freshCode
  | @reported signers reportedKey score cpu disk net node nonempty found
      signed =>
      have otherCode : stringToName reportedKey ≠ stringToName pubkey :=
        of_decide_eq_true avoids
      rw [extended.findBy_getPubkey otherCode] at found
      have effect :
          Effect self db ⟨signers, .moddeposit reportedKey score cpu disk net⟩
            (db.report (stringToName reportedKey) ⟨score, cpu, disk, net⟩) :=
        .reported nonempty found signed
      refine ⟨_, apply_eq_ok_iff.mpr effect, ?_, ?_, ?_⟩
      · rw [extended.registered, report_register_comm otherCode]
      · rw [Tables.nodeinfo_report]
        exact extended.freshName
      · rw [Tables.find_deposit_report, if_neg otherCode.symm]
        exact extended.freshCode

/-! ### Removing the node at the end -/

/-- A node that is registered, left alone by a run, and then removed leaves the
tables that the run would have left without it. -/
theorem removal_leaves_no_trace {self name : AccountName} {pubkey : StdString}
    {db registered ran : Tables} {signers removers : List AccountName}
    {txs : List Transaction}
    (registration :
      apply self db ⟨signers, .createacnt name pubkey⟩ = .ok registered)
    (avoids : ∀ tx ∈ txs, tx.action.avoids name pubkey)
    (succeeds : runAll (apply self) registered txs = .ok ran)
    (authorised : self ∈ removers) :
    ∃ final, apply self ran ⟨removers, .deleteacnt name pubkey⟩ = .ok final ∧
      runAll (apply self) db txs = .ok final := by
  cases apply_eq_ok_iff.mp registration with
  | created positive nonempty _ freshName freshCode =>
      have started : Extends name pubkey (db.register name pubkey) db :=
        ⟨rfl, freshName, freshCode⟩
      have eachStep : ∀ withNode db tx after, Extends name pubkey withNode db →
          tx.action.avoids name pubkey → apply self withNode tx = .ok after →
            ∃ next, apply self db tx = .ok next ∧
              Extends name pubkey after next :=
        fun _ _ _ _ extended avoids done =>
          apply_with_node extended avoids done
      obtain ⟨final, ranWithout, ended⟩ :=
        runAll_simulation eachStep started avoids succeeds
      have stored : ran.nodeinfo.find name = some ⟨name, pubkey⟩ := by
        rw [ended.registered, Tables.find_nodeinfo_register, if_pos rfl]
      have removal :
          Effect self ran ⟨removers, .deleteacnt name pubkey⟩
            (ran.unregister name pubkey) :=
        .deleted positive nonempty authorised stored
      have restored : ran.unregister name pubkey = final := by
        rw [ended.registered,
          unregister_register ended.freshName ended.freshCode]
      rw [restored] at removal
      exact ⟨final, apply_eq_ok_iff.mpr removal, ranWithout⟩

/-- Node `3` reports and node `2` is removed. -/
def otherNodesRun : List Transaction :=
  [⟨[3], .moddeposit [99] 5 6 7 8⟩, ⟨[1], .deleteacnt 2 [97, 98]⟩]

/-- Node `4` is registered before these actions and removed after them. -/
theorem removal_registeredRun :
    ∃ final,
      apply 1 (run (apply 1) Tables.empty
          (registeredRun ++ ⟨[1], .createacnt 4 [100]⟩ :: otherNodesRun))
        ⟨[1], .deleteacnt 4 [100]⟩ = .ok final ∧
      runAll (apply 1) (run (apply 1) Tables.empty registeredRun)
        otherNodesRun = .ok final := by
  let db := run (apply 1) Tables.empty registeredRun
  let registered := run (apply 1) db [⟨[1], .createacnt 4 [100]⟩]
  have registration :
      apply 1 db ⟨[1], .createacnt 4 [100]⟩ = .ok registered := by
    decide
  have succeeds :
      runAll (apply 1) registered otherNodesRun =
        .ok (run (apply 1) Tables.empty
          (registeredRun ++ ⟨[1], .createacnt 4 [100]⟩ :: otherNodesRun)) := by
    decide
  have avoids : ∀ tx ∈ otherNodesRun, tx.action.avoids 4 [100] := by
    decide
  exact removal_leaves_no_trace registration avoids succeeds (by decide)

end Bright.Award

import Bright.Award.Metrics

/-!
# Nodes known by a code

`deleteacnt` compares public keys as strings.  `moddeposit` and the primary
key of `deposit` compare their codes, and a code does not determine its key.
A report for another key with the code of a node is taken for that node, and a
new node whose key has the code of a registered one is refused.  Both go wrong
exactly when such a second key is presented.
-/

namespace Bright.Award

open Bright.Lib Bright.Eosio Bright.Name

/-- The report was for a registered public key whose account signed, and only
the deposit row of that key has changed. -/
def Identifies (before : Tables) (signers : List AccountName)
    (pubkey : StdString) (after : Tables) : Prop :=
  (∃ node ∈ before.nodeinfo.rows,
    node.pubkey = pubkey ∧ node.name ∈ signers) ∧
  after.nodeinfo = before.nodeinfo ∧
  ∀ row : StDeposit, row.nodepubkey ≠ pubkey →
    (row ∈ after.deposit.rows ↔ row ∈ before.deposit.rows)

/-- No signer has a node with another public key of the same code. -/
def KnownExactly (db : Tables) (signers : List AccountName)
    (pubkey : StdString) : Prop :=
  ∀ node ∈ db.nodeinfo.rows, node.getPubkey = stringToName pubkey →
    node.name ∈ signers → node.pubkey = pubkey

/-- One node and one row of zeros have been added, and nothing else. -/
def Adds (before : Tables) (name : AccountName) (pubkey : StdString)
    (after : Tables) : Prop :=
  (∀ node, node ∈ after.nodeinfo.rows ↔
    node = ⟨name, pubkey⟩ ∨ node ∈ before.nodeinfo.rows) ∧
  ∀ row, row ∈ after.deposit.rows ↔
    row = ⟨pubkey, 0, 0, 0, 0⟩ ∨ row ∈ before.deposit.rows

/-- No node has the code of the public key. -/
def NewCode (db : Tables) (pubkey : StdString) : Prop :=
  ∀ node ∈ db.nodeinfo.rows, node.getPubkey ≠ stringToName pubkey

variable {self name : AccountName} {signers : List AccountName}
  {pubkey : StdString} {score cpu disk net : UInt64} {db after : Tables}

/-! ### Reports -/

/-- A report writes only rows under its code. -/
theorem mem_report_iff (metrics : Metrics) {row : StDeposit}
    (otherCode : row.primaryKey ≠ stringToName pubkey) :
    row ∈ (db.report (stringToName pubkey) metrics).deposit.rows ↔
      row ∈ db.deposit.rows := by
  have lookup :
      (db.report (stringToName pubkey) metrics).deposit.find row.primaryKey =
        db.deposit.find row.primaryKey := by
    rw [Tables.find_deposit_report, if_neg otherCode]
  constructor
  · intro member
    exact Table.mem_of_find (lookup.symm.trans (Table.find_of_mem member))
  · intro member
    exact Table.mem_of_find (lookup.trans (Table.find_of_mem member))

/-- The row under the code of a node belongs to the public key of the node. -/
theorem Tables.Matched.nodepubkey_eq (matched : db.Matched) {node : StNodeinfo}
    (member : node ∈ db.nodeinfo.rows) {row : StDeposit}
    (stored : row ∈ db.deposit.rows) (sameCode : row.primaryKey = node.getPubkey) :
    row.nodepubkey = node.pubkey := by
  obtain ⟨own, found, ownPubkey⟩ := matched.find_deposit member
  have ownRow : own = row := by
    rw [← sameCode, Table.find_of_mem stored] at found
    exact (Option.some.inj found).symm
  rw [← ownRow]
  exact ownPubkey

/-- A successful report identifies its node exactly if the node found under its
code has its public key. -/
theorem identifies_iff (matched : db.Matched)
    (done : apply self db ⟨signers, .moddeposit pubkey score cpu disk net⟩ =
      .ok after) :
    Identifies db signers pubkey after ↔ KnownExactly db signers pubkey := by
  constructor
  · intro identified node member sameCode _
    obtain ⟨known, knownMember, knownPubkey, _⟩ := identified.1
    have knownCode : node.getPubkey = known.getPubkey := by
      rw [sameCode, ← knownPubkey]
      rfl
    rw [matched.codesDiffer node member known knownMember knownCode]
    exact knownPubkey
  · intro knownExactly
    have stillMatched := matched_apply matched done
    cases apply_eq_ok_iff.mp done with
    | @reported _ _ _ _ _ _ node _ found signed =>
        obtain ⟨member, sameCode⟩ := Table.mem_of_findBy found
        have samePubkey := knownExactly node member sameCode signed
        refine ⟨⟨node, member, samePubkey, signed⟩, Tables.nodeinfo_report, ?_⟩
        intro row otherPubkey
        by_cases rowCode : row.primaryKey = stringToName pubkey
        · have ofNode : row.primaryKey = node.getPubkey :=
            rowCode.trans sameCode.symm
          have memberAfter : node ∈ (db.report (stringToName pubkey)
              ⟨score, cpu, disk, net⟩).nodeinfo.rows := by
            rw [Tables.nodeinfo_report]
            exact member
          constructor
          · intro stored
            have own := stillMatched.nodepubkey_eq memberAfter stored ofNode
            exact absurd (own.trans samePubkey) otherPubkey
          · intro stored
            have own := matched.nodepubkey_eq member stored ofNode
            exact absurd (own.trans samePubkey) otherPubkey
        · exact mem_report_iff _ rowCode

/-- A report that a node with its code has signed succeeds. -/
theorem moddeposit_succeeds (matched : db.Matched)
    (nonempty : 0 < pubkey.length) {node : StNodeinfo}
    (member : node ∈ db.nodeinfo.rows)
    (sameCode : node.getPubkey = stringToName pubkey)
    (signed : node.name ∈ signers) :
    apply self db ⟨signers, .moddeposit pubkey score cpu disk net⟩ =
      .ok (db.report (stringToName pubkey) ⟨score, cpu, disk, net⟩) := by
  have found := matched.findBy_getPubkey member
  rw [sameCode] at found
  exact apply_eq_ok_iff.mpr (.reported nonempty found signed)

/-- What a report of a run identifies. -/
theorem identifies_iff_of_mem_history {txs : List Transaction}
    {t : Transition Tables Transaction} (member : t ∈ history self txs)
    (isReport : t.action.action = .moddeposit pubkey score cpu disk net) :
    Identifies t.before t.action.signers pubkey t.after ↔
      KnownExactly t.before t.action.signers pubkey := by
  have matched := matched_of_reachable (reachable_before_of_mem_trace member)
  have done := step_of_mem_trace member
  obtain ⟨before, ⟨signers, action⟩, after⟩ := t
  subst isReport
  exact identifies_iff matched done

/-- In every reachable state `moddeposit` identifies the node of a public key
exactly if no signer has a node with another key of the same code, and a run
does so in all its reports exactly if all of them meet that condition. -/
theorem moddeposit_identifies_iff (self : AccountName) :
    (∀ db signers pubkey score cpu disk net,
      Reachable (apply self) Tables.empty db → 0 < pubkey.length →
        ((∀ after,
          apply self db ⟨signers, .moddeposit pubkey score cpu disk net⟩ =
              .ok after →
            Identifies db signers pubkey after) ↔
          KnownExactly db signers pubkey)) ∧
    ∀ txs,
      (∀ t ∈ history self txs, ∀ pubkey score cpu disk net,
        t.action.action = .moddeposit pubkey score cpu disk net →
          Identifies t.before t.action.signers pubkey t.after) ↔
      ∀ t ∈ history self txs, ∀ pubkey score cpu disk net,
        t.action.action = .moddeposit pubkey score cpu disk net →
          KnownExactly t.before t.action.signers pubkey := by
  constructor
  · intro db signers pubkey score cpu disk net reached nonempty
    have matched := matched_of_reachable reached
    constructor
    · intro identified node member sameCode signed
      have done :
          apply self db ⟨signers, .moddeposit pubkey score cpu disk net⟩ =
            .ok (db.report (stringToName pubkey) ⟨score, cpu, disk, net⟩) :=
        moddeposit_succeeds matched nonempty member sameCode signed
      have known := (identifies_iff matched done).mp (identified _ done)
      exact known node member sameCode signed
    · intro known after done
      exact (identifies_iff matched done).mpr known
  · intro txs
    constructor
    · intro identified t member pubkey score cpu disk net isReport
      exact (identifies_iff_of_mem_history member isReport).mp
        (identified t member pubkey score cpu disk net isReport)
    · intro known t member pubkey score cpu disk net isReport
      exact (identifies_iff_of_mem_history member isReport).mpr
        (known t member pubkey score cpu disk net isReport)

/-- The public key of node `2` is known exactly. -/
theorem moddeposit_identifies_registeredRun :
    Identifies (run (apply 1) Tables.empty registeredRun) [2] [97, 98]
      (attempt (apply 1) (run (apply 1) Tables.empty registeredRun)
        ⟨[2], .moddeposit [97, 98] 5 6 7 8⟩) := by
  have known :
      KnownExactly (run (apply 1) Tables.empty registeredRun) [2] [97, 98] := by
    unfold KnownExactly
    decide
  exact ((moddeposit_identifies_iff 1).1
    (run (apply 1) Tables.empty registeredRun) [2] [97, 98] 5 6 7 8
    (reachable_run registeredRun) (by decide)).mpr known _ (by decide)

/-- Node `2` reports for the key `abA`, which has the code of its own key
`ab`. -/
theorem moddeposit_other_key :
    ¬ ∀ (self : AccountName) (db : Tables) (signers : List AccountName)
      (pubkey : StdString) (score cpu disk net : UInt64) (after : Tables),
      Reachable (apply self) Tables.empty db → 0 < pubkey.length →
        apply self db ⟨signers, .moddeposit pubkey score cpu disk net⟩ =
            .ok after →
          Identifies db signers pubkey after := by
  intro identifies
  let db := run (apply 1) Tables.empty registeredRun
  let after := attempt (apply 1) db ⟨[2], .moddeposit [97, 98, 65] 5 6 7 8⟩
  have done :
      apply 1 db ⟨[2], .moddeposit [97, 98, 65] 5 6 7 8⟩ = .ok after := by
    decide
  have identified := identifies 1 db [2] [97, 98, 65] 5 6 7 8 after
    (reachable_run registeredRun) (by decide) done
  have unknown : ¬ ∃ node ∈ db.nodeinfo.rows,
      node.pubkey = [97, 98, 65] ∧ node.name ∈ [2] := by
    decide
  exact unknown identified.1

/-! ### Registrations -/

theorem adds_register (freshName : db.nodeinfo.find name = none)
    (freshCode : db.deposit.find (stringToName pubkey) = none) :
    Adds db name pubkey (db.register name pubkey) := by
  constructor
  · intro node
    rw [mem_register]
    constructor
    · intro member
      rcases member with new | old
      · exact Or.inl new
      · exact Or.inr old.1
    · intro member
      rcases member with new | old
      · exact Or.inl new
      · exact Or.inr ⟨old, Table.find_eq_none_iff.mp freshName node old⟩
  · intro row
    have written :
        row ∈ (db.register name pubkey).deposit.rows ↔
          row = ⟨pubkey, 0, 0, 0, 0⟩ ∨
            (row ∈ db.deposit.rows ∧ row.primaryKey ≠ stringToName pubkey) :=
      Table.mem_put
    rw [written]
    constructor
    · intro member
      rcases member with new | old
      · exact Or.inl new
      · exact Or.inr old.1
    · intro member
      rcases member with new | old
      · exact Or.inl new
      · exact Or.inr ⟨old, Table.find_eq_none_iff.mp freshCode row old⟩

/-- The deposit table has no row under a code exactly if no node has it. -/
theorem Tables.Matched.find_eq_none_iff (matched : db.Matched) :
    db.deposit.find (stringToName pubkey) = none ↔ NewCode db pubkey := by
  constructor
  · intro fresh node member
    exact matched.ne_of_fresh fresh member
  · intro newCode
    apply Table.find_eq_none_iff.mpr
    intro row stored sameCode
    obtain ⟨node, member, samePubkey⟩ := matched.depositNode row stored
    have nodeCode : node.getPubkey = stringToName pubkey :=
      (congrArg stringToName samePubkey).trans sameCode
    exact newCode node member nodeCode

/-- A registration of a new name is refused for its code alone. -/
theorem createacnt_result (positive : 0 < name)
    (nonempty : 0 < pubkey.length) (signed : self ∈ signers)
    (freshName : db.nodeinfo.find name = none) :
    apply self db ⟨signers, .createacnt name pubkey⟩ =
      if db.deposit.find (stringToName pubkey) = none then
        .ok (db.register name pubkey)
      else
        .error .keyInUse := by
  split_ifs with freshCode
  · exact apply_eq_ok_iff.mpr
      (.created positive nonempty signed freshName freshCode)
  · have accepted :
        createacnt self signers name pubkey db =
          createDepositDataByAccount pubkey
            { db with nodeinfo := db.nodeinfo.put ⟨name, pubkey⟩ } := by
      have freshRow :
          db.nodeinfo.find (StNodeinfo.primaryKey ⟨name, pubkey⟩) = none :=
        freshName
      simp only [createacnt, eosioAssert, requireAuth, MultiIndex.emplace,
        if_pos positive, if_pos nonempty, if_pos signed, if_pos freshName,
        if_pos freshRow]
      rfl
    have taken :
        db.deposit.find (StDeposit.primaryKey ⟨pubkey, 0, 0, 0, 0⟩) ≠ none :=
      freshCode
    have refused :
        createDepositDataByAccount pubkey
            { db with nodeinfo := db.nodeinfo.put ⟨name, pubkey⟩ } =
          .error .keyInUse := by
      simp only [createDepositDataByAccount, MultiIndex.emplace, if_neg taken]
      rfl
    exact accepted.trans refused

theorem createacnt_accepts (reached : Reachable (apply self) Tables.empty db)
    (positive : 0 < name) (nonempty : 0 < pubkey.length)
    (signed : self ∈ signers) (newName : name ∉ db.nodeinfo.keys)
    (newCode : NewCode db pubkey) :
    ∃ after, apply self db ⟨signers, .createacnt name pubkey⟩ = .ok after ∧
      Adds db name pubkey after := by
  have matched := matched_of_reachable reached
  have freshName := Table.notMem_keys.mp newName
  have freshCode := matched.find_eq_none_iff.mpr newCode
  refine ⟨db.register name pubkey, ?_, adds_register freshName freshCode⟩
  rw [createacnt_result positive nonempty signed freshName, if_pos freshCode]

theorem createacnt_keyInUse (reached : Reachable (apply self) Tables.empty db)
    (positive : 0 < name) (nonempty : 0 < pubkey.length)
    (signed : self ∈ signers) (newName : name ∉ db.nodeinfo.keys)
    (knownCode : ¬ NewCode db pubkey) :
    apply self db ⟨signers, .createacnt name pubkey⟩ = .error .keyInUse := by
  have matched := matched_of_reachable reached
  have freshName := Table.notMem_keys.mp newName
  rw [← matched.find_eq_none_iff] at knownCode
  rw [createacnt_result positive nonempty signed freshName, if_neg knownCode]

/-- In every reachable state a signed registration of a new name under a new
public key is accepted exactly if no node has a key of the same code, and is
refused by the deposit table otherwise.  It is accepted at the end of every
run that registers no other key of the same code. -/
theorem createacnt_accepts_iff (self : AccountName) :
    (∀ db signers name pubkey, Reachable (apply self) Tables.empty db →
      0 < name → 0 < pubkey.length → self ∈ signers →
        name ∉ db.nodeinfo.keys →
        (∀ node ∈ db.nodeinfo.rows, node.pubkey ≠ pubkey) →
          ((∃ after,
            apply self db ⟨signers, .createacnt name pubkey⟩ = .ok after ∧
              Adds db name pubkey after) ↔ NewCode db pubkey) ∧
          (¬ NewCode db pubkey →
            apply self db ⟨signers, .createacnt name pubkey⟩ =
              .error .keyInUse)) ∧
    ∀ txs signers name pubkey,
      (∀ tx ∈ txs, ∀ other key, tx.action = .createacnt other key →
        stringToName key = stringToName pubkey → key = pubkey) →
      0 < name → 0 < pubkey.length → self ∈ signers →
        name ∉ (run (apply self) Tables.empty txs).nodeinfo.keys →
        (∀ node ∈ (run (apply self) Tables.empty txs).nodeinfo.rows,
          node.pubkey ≠ pubkey) →
          ∃ after,
            apply self (run (apply self) Tables.empty txs)
                ⟨signers, .createacnt name pubkey⟩ = .ok after ∧
              Adds (run (apply self) Tables.empty txs) name pubkey after := by
  constructor
  · intro db signers name pubkey reached positive nonempty signed newName _
    refine ⟨?_, createacnt_keyInUse reached positive nonempty signed newName⟩
    constructor
    · intro accepted
      obtain ⟨after, done, _⟩ := accepted
      by_contra knownCode
      rw [createacnt_keyInUse reached positive nonempty signed newName
        knownCode] at done
      cases done
    · exact createacnt_accepts reached positive nonempty signed newName
  · intro txs signers name pubkey noOther positive nonempty signed newName newKey
    apply createacnt_accepts (reachable_run txs) positive nonempty signed newName
    intro node member sameCode
    obtain ⟨tx, tried, registration⟩ := registration_of_mem_run member
    exact newKey node member
      (noOther tx tried node.name node.pubkey registration sameCode)

/-- Node `4` with the key `d` is registered behind the nodes `2` and `3`. -/
theorem createacnt_accepts_registeredRun :
    ∃ after,
      apply 1 (run (apply 1) Tables.empty registeredRun)
          ⟨[1], .createacnt 4 [100]⟩ = .ok after ∧
        Adds (run (apply 1) Tables.empty registeredRun) 4 [100] after := by
  have newCode :
      NewCode (run (apply 1) Tables.empty registeredRun) [100] := by
    unfold NewCode
    decide
  exact ((createacnt_accepts_iff 1).1
    (run (apply 1) Tables.empty registeredRun) [1] 4 [100]
    (reachable_run registeredRun) (by decide) (by decide) (by decide)
    (by decide) (by decide)).1.mpr newCode

/-- The key `abA` is refused because node `2` has the key `ab`. -/
theorem createacnt_refused :
    ¬ ∀ (self : AccountName) (db : Tables) (signers : List AccountName)
      (name : AccountName) (pubkey : StdString),
      Reachable (apply self) Tables.empty db → 0 < name → 0 < pubkey.length →
        self ∈ signers → name ∉ db.nodeinfo.keys →
        (∀ node ∈ db.nodeinfo.rows, node.pubkey ≠ pubkey) →
          ∃ after,
            apply self db ⟨signers, .createacnt name pubkey⟩ = .ok after := by
  intro accepted
  obtain ⟨after, done⟩ := accepted 1 (run (apply 1) Tables.empty registeredRun)
    [1] 4 [97, 98, 65] (reachable_run registeredRun) (by decide) (by decide)
    (by decide) (by decide) (by decide)
  have refused :
      apply 1 (run (apply 1) Tables.empty registeredRun)
        ⟨[1], .createacnt 4 [97, 98, 65]⟩ = .error .keyInUse := by
    decide
  rw [refused] at done
  cases done

end Bright.Award

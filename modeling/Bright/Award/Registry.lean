import Bright.Award.Effects

/-!
# The registry invariant

In every reachable state the nodes have pairwise different codes, and the
deposit table holds one row for the public key of each node and no other row.
No line of the contract compares public keys of different nodes: a second node
with a code in use is refused by the `emplace` into the deposit table, and
that failure takes the row of `nodeinfo` back.
-/

namespace Bright.Award

open Bright.Lib Bright.Eosio Bright.Name

/-- The invariant of the two tables. -/
structure Tables.Matched (db : Tables) : Prop where
  codesDiffer : ∀ node ∈ db.nodeinfo.rows, ∀ other ∈ db.nodeinfo.rows,
    node.getPubkey = other.getPubkey → node = other
  nodeDeposit : ∀ node ∈ db.nodeinfo.rows, ∃ row ∈ db.deposit.rows,
    row.nodepubkey = node.pubkey
  depositNode : ∀ row ∈ db.deposit.rows, ∃ node ∈ db.nodeinfo.rows,
    node.pubkey = row.nodepubkey

variable {self : AccountName} {db after : Tables} {tx : Transaction}

theorem matched_empty : Tables.empty.Matched where
  codesDiffer := by
    intro node member
    cases member
  nodeDeposit := by
    intro node member
    cases member
  depositNode := by
    intro row member
    cases member

/-- The deposit row of a node is found under its code. -/
theorem Tables.Matched.find_deposit (matched : db.Matched) {node : StNodeinfo}
    (member : node ∈ db.nodeinfo.rows) :
    ∃ row, db.deposit.find node.getPubkey = some row ∧
      row.nodepubkey = node.pubkey := by
  obtain ⟨row, stored, samePubkey⟩ := matched.nodeDeposit node member
  have rowCode : row.primaryKey = node.getPubkey :=
    congrArg stringToName samePubkey
  refine ⟨row, ?_, samePubkey⟩
  rw [← rowCode]
  exact Table.find_of_mem stored

/-- A code without a deposit row is not the code of a node. -/
theorem Tables.Matched.ne_of_fresh (matched : db.Matched) {code : UInt64}
    (fresh : db.deposit.find code = none) {node : StNodeinfo}
    (member : node ∈ db.nodeinfo.rows) : node.getPubkey ≠ code := by
  intro same
  obtain ⟨row, found, _⟩ := matched.find_deposit member
  rw [same, fresh] at found
  cases found

/-! ### The three writes -/

theorem mem_register {name : AccountName} {pubkey : StdString}
    {node : StNodeinfo} :
    node ∈ (db.register name pubkey).nodeinfo.rows ↔
      node = ⟨name, pubkey⟩ ∨ (node ∈ db.nodeinfo.rows ∧ node.name ≠ name) :=
  Table.mem_put

theorem mem_unregister {name : AccountName} {pubkey : StdString}
    {node : StNodeinfo} :
    node ∈ (db.unregister name pubkey).nodeinfo.rows ↔
      node ∈ db.nodeinfo.rows ∧ node.name ≠ name :=
  Table.mem_erase

theorem matched_register (matched : db.Matched) {name : AccountName}
    {pubkey : StdString} (freshName : db.nodeinfo.find name = none)
    (freshCode : db.deposit.find (stringToName pubkey) = none) :
    (db.register name pubkey).Matched := by
  have newRow : (⟨pubkey, 0, 0, 0, 0⟩ : StDeposit) ∈
      (db.register name pubkey).deposit.rows :=
    Table.mem_put.mpr (Or.inl rfl)
  have oldRow : ∀ row ∈ db.deposit.rows,
      row ∈ (db.register name pubkey).deposit.rows := by
    intro row member
    have different := Table.find_eq_none_iff.mp freshCode row member
    exact Table.mem_put.mpr (Or.inr ⟨member, different⟩)
  have oldNode : ∀ node ∈ db.nodeinfo.rows,
      node ∈ (db.register name pubkey).nodeinfo.rows := by
    intro node member
    have different := Table.find_eq_none_iff.mp freshName node member
    exact mem_register.mpr (Or.inr ⟨member, different⟩)
  refine ⟨?_, ?_, ?_⟩
  · intro node member other otherMember same
    rcases mem_register.mp member with new | ⟨old, _⟩
    · rcases mem_register.mp otherMember with otherNew | ⟨otherOld, _⟩
      · rw [new, otherNew]
      · rw [new] at same
        exact absurd same.symm (matched.ne_of_fresh freshCode otherOld)
    · rcases mem_register.mp otherMember with otherNew | ⟨otherOld, _⟩
      · rw [otherNew] at same
        exact absurd same (matched.ne_of_fresh freshCode old)
      · exact matched.codesDiffer node old other otherOld same
  · intro node member
    rcases mem_register.mp member with new | ⟨old, _⟩
    · rw [new]
      exact ⟨_, newRow, rfl⟩
    · obtain ⟨row, stored, samePubkey⟩ := matched.nodeDeposit node old
      exact ⟨row, oldRow row stored, samePubkey⟩
  · intro row member
    rcases Table.mem_put.mp member with new | ⟨old, _⟩
    · rw [new]
      exact ⟨_, mem_register.mpr (Or.inl rfl), rfl⟩
    · obtain ⟨node, stored, samePubkey⟩ := matched.depositNode row old
      exact ⟨node, oldNode node stored, samePubkey⟩

theorem matched_unregister (matched : db.Matched) {name : AccountName}
    {pubkey : StdString}
    (registered : db.nodeinfo.find name = some ⟨name, pubkey⟩) :
    (db.unregister name pubkey).Matched := by
  have removed : (⟨name, pubkey⟩ : StNodeinfo) ∈ db.nodeinfo.rows :=
    Table.mem_of_find registered
  refine ⟨?_, ?_, ?_⟩
  · intro node member other otherMember same
    exact matched.codesDiffer node (mem_unregister.mp member).1 other
      (mem_unregister.mp otherMember).1 same
  · intro node member
    obtain ⟨stored, otherName⟩ := mem_unregister.mp member
    obtain ⟨row, rowStored, samePubkey⟩ := matched.nodeDeposit node stored
    have keptCode : row.primaryKey ≠ stringToName pubkey := by
      intro same
      have sameCode : node.getPubkey = stringToName pubkey := by
        rw [← same]
        exact congrArg stringToName samePubkey.symm
      have sameNode := matched.codesDiffer node stored _ removed sameCode
      exact otherName (congrArg StNodeinfo.name sameNode)
    exact ⟨row, Table.mem_erase.mpr ⟨rowStored, keptCode⟩, samePubkey⟩
  · intro row member
    obtain ⟨stored, otherCode⟩ := Table.mem_erase.mp member
    obtain ⟨node, nodeStored, samePubkey⟩ := matched.depositNode row stored
    have keptName : node.name ≠ name := by
      intro same
      have sameNode : node = ⟨name, pubkey⟩ :=
        Table.eq_of_key_eq db.nodeinfo nodeStored removed same
      have rowCode : row.primaryKey = stringToName pubkey := by
        rw [StDeposit.primaryKey, ← samePubkey, sameNode]
      exact otherCode rowCode
    exact ⟨node, mem_unregister.mpr ⟨nodeStored, keptName⟩, samePubkey⟩

theorem matched_report (matched : db.Matched) (code : UInt64)
    (metrics : Metrics) : (db.report code metrics).Matched := by
  unfold Tables.report
  split
  · rename_i row found
    have stored : row ∈ db.deposit.rows := Table.mem_of_find found
    refine ⟨matched.codesDiffer, ?_, ?_⟩
    · intro node member
      obtain ⟨old, oldStored, samePubkey⟩ := matched.nodeDeposit node member
      by_cases same : old.primaryKey = row.primaryKey
      · have oldRow : old = row :=
          Table.eq_of_key_eq db.deposit oldStored stored same
        rw [oldRow] at samePubkey
        exact ⟨row.withMetrics metrics, Table.mem_put.mpr (Or.inl rfl),
          samePubkey⟩
      · exact ⟨old, Table.mem_put.mpr (Or.inr ⟨oldStored, same⟩), samePubkey⟩
    · intro written member
      rcases Table.mem_put.mp member with new | ⟨old, _⟩
      · obtain ⟨node, nodeStored, samePubkey⟩ := matched.depositNode row stored
        rw [new]
        exact ⟨node, nodeStored, samePubkey⟩
      · exact matched.depositNode written old
  · exact matched

/-- Every successful action keeps the invariant. -/
theorem matched_apply (matched : db.Matched)
    (done : apply self db tx = .ok after) : after.Matched := by
  cases apply_eq_ok_iff.mp done with
  | greeted => exact matched
  | issued => exact matched
  | created _ _ _ freshName freshCode =>
      exact matched_register matched freshName freshCode
  | deleted _ _ _ registered => exact matched_unregister matched registered
  | reported => exact matched_report matched _ _

theorem matched_of_reachable
    (reached : Reachable (apply self) Tables.empty db) : db.Matched :=
  reachable_induction matched_empty
    (fun _ _ _ matched done => matched_apply matched done) reached

/-! ### Agreement of the registry and the metrics -/

/-- A node is the only one with its code, so it is the one that a lookup by
code returns. -/
theorem Tables.Matched.findBy_getPubkey (matched : db.Matched)
    {node : StNodeinfo} (member : node ∈ db.nodeinfo.rows) :
    db.nodeinfo.findBy StNodeinfo.getPubkey node.getPubkey = some node := by
  apply Table.findBy_eq_some_of_unique member rfl
  intro other otherMember same
  exact matched.codesDiffer other otherMember node member same

/-- In every reachable state different nodes have different codes, each node
has exactly one deposit row, each deposit row belongs to exactly one node, and
the lookups in the deposit table by which `moddeposit` and `deleteacnt` find
the row of a node they have checked do not fail. -/
theorem registry_matched {self : AccountName} {db : Tables}
    (reached : Reachable (apply self) Tables.empty db) :
    (db.nodeinfo.rows.map StNodeinfo.getPubkey).Nodup ∧
      (∀ node ∈ db.nodeinfo.rows,
        ∃! row, row ∈ db.deposit.rows ∧ row.nodepubkey = node.pubkey) ∧
      (∀ row ∈ db.deposit.rows,
        ∃! node, node ∈ db.nodeinfo.rows ∧ node.pubkey = row.nodepubkey) ∧
      (∀ pubkey node,
        db.nodeinfo.findBy StNodeinfo.getPubkey (stringToName pubkey) =
            some node →
          db.deposit.findBy StDeposit.getNodepubkey (stringToName pubkey) ≠
            none) ∧
      ∀ name pubkey node,
        db.nodeinfo.findBy StNodeinfo.getName name = some node →
          node.pubkey = pubkey →
          db.deposit.findBy StDeposit.getNodepubkey (stringToName pubkey) ≠
            none := by
  have matched := matched_of_reachable reached
  have depositOf : ∀ node ∈ db.nodeinfo.rows,
      db.deposit.findBy StDeposit.getNodepubkey node.getPubkey ≠ none := by
    intro node member missing
    obtain ⟨row, found, _⟩ := matched.find_deposit member
    rw [findBy_getNodepubkey, found] at missing
    cases missing
  refine ⟨?_, ?_, ?_, ?_, ?_⟩
  · apply List.Nodup.map_on
    · exact matched.codesDiffer
    · exact db.nodeinfo.rows_nodup
  · intro node member
    obtain ⟨row, stored, samePubkey⟩ := matched.nodeDeposit node member
    refine ⟨row, ⟨stored, samePubkey⟩, ?_⟩
    intro other otherHolds
    have sameKey : other.primaryKey = row.primaryKey :=
      congrArg stringToName (otherHolds.2.trans samePubkey.symm)
    exact Table.eq_of_key_eq db.deposit otherHolds.1 stored sameKey
  · intro row member
    obtain ⟨node, stored, samePubkey⟩ := matched.depositNode row member
    refine ⟨node, ⟨stored, samePubkey⟩, ?_⟩
    intro other otherHolds
    have sameCode : other.getPubkey = node.getPubkey :=
      congrArg stringToName (otherHolds.2.trans samePubkey.symm)
    exact matched.codesDiffer other otherHolds.1 node stored sameCode
  · intro pubkey node found
    obtain ⟨member, sameCode⟩ := Table.mem_of_findBy found
    rw [← sameCode]
    exact depositOf node member
  · intro name pubkey node found samePubkey
    have member := (Table.mem_of_findBy found).1
    rw [← samePubkey]
    exact depositOf node member

/-- A contract account `1` with the nodes `2` and `3`. -/
def registeredRun : List Transaction :=
  [⟨[1], .createacnt 2 [97, 98]⟩, ⟨[1], .createacnt 3 [99]⟩,
    ⟨[2], .moddeposit [97, 98] 1 2 3 4⟩]

theorem registry_matched_registeredRun :
    ((run (apply 1) Tables.empty registeredRun).nodeinfo.rows.map
      StNodeinfo.getPubkey).Nodup :=
  (registry_matched (reachable_run registeredRun)).1

end Bright.Award

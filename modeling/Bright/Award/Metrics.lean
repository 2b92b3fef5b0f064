import Bright.Award.Registry

/-!
# Whose metrics a node carries

The metrics of a node are those of the last report since its registration that
its account signed for a public key with its code.  `moddeposit` checks the
signature against a row of `nodeinfo` and writes a row of `deposit` that it
looks up separately; the registry invariant makes these two the rows of one
node.
-/

namespace Bright.Award

open Bright.Lib Bright.Eosio Bright.Name

/-- Whether an action registers a node under `name`. -/
def Action.creates (name : AccountName) : Action → Bool
  | .createacnt created _ => created = name
  | _ => false

/-- Whether an action names the account of a node, or a code equal to its
own. -/
def Action.concerns (node : StNodeinfo) : Action → Bool
  | .createacnt name _ => name = node.name
  | .deleteacnt name _ => name = node.name
  | .moddeposit pubkey _ _ _ _ => stringToName pubkey = node.getPubkey
  | _ => false

/-- The metrics that a transaction reports for a node. -/
def reportFor (node : StNodeinfo) (tx : Transaction) : Option Metrics :=
  match tx.action with
  | .moddeposit pubkey score cpu disk net =>
      if tx.signers.contains node.name ∧
          stringToName pubkey = node.getPubkey then
        some ⟨score, cpu, disk, net⟩
      else
        none
  | _ => none

/-- The last report for a node, zeros if there was none. -/
def lastReport (node : StNodeinfo) (txs : List Transaction) : Metrics :=
  (txs.filterMap (reportFor node)).getLast?.getD Metrics.zero

/-- The deposit row of a node carries the given metrics. -/
def Carries (db : Tables) (node : StNodeinfo) (metrics : Metrics) : Prop :=
  ∃ row, db.deposit.find node.getPubkey = some row ∧
    row.nodepubkey = node.pubkey ∧ row.metrics = metrics

/-- The past of a node splits at its registration, the latest one of its name,
and the reports since then make up its metrics. -/
def ReportedBy (past : List Transaction) (db : Tables) (node : StNodeinfo) :
    Prop :=
  SinceLast (fun tx => tx.action = .createacnt node.name node.pubkey)
    (fun tx => tx.action.creates node.name)
    (fun later => Carries db node (lastReport node later)) past

variable {self : AccountName} {db after : Tables} {tx : Transaction}
  {node : StNodeinfo}

theorem lastReport_append_of_none {txs : List Transaction}
    (silent : reportFor node tx = none) :
    lastReport node (txs ++ [tx]) = lastReport node txs := by
  simp [lastReport, silent]

theorem lastReport_append_of_some {txs : List Transaction} {metrics : Metrics}
    (reported : reportFor node tx = some metrics) :
    lastReport node (txs ++ [tx]) = metrics := by
  simp [lastReport, reported]

theorem reportFor_of_not_concerns (unconcerned : tx.action.concerns node = false) :
    reportFor node tx = none := by
  obtain ⟨signers, action⟩ := tx
  cases action with
  | moddeposit pubkey score cpu disk net =>
      have otherCode : stringToName pubkey ≠ node.getPubkey :=
        of_decide_eq_false unconcerned
      simp [reportFor, otherCode]
  | hello user => rfl
  | createacnt name pubkey => rfl
  | deleteacnt name pubkey => rfl
  | issue => rfl

/-- An action that does not concern a node keeps the node and its row. -/
theorem find_deposit_of_not_concerns (matched : db.Matched)
    (done : apply self db tx = .ok after) (member : node ∈ db.nodeinfo.rows)
    (unconcerned : tx.action.concerns node = false) :
    node ∈ after.nodeinfo.rows ∧
      after.deposit.find node.getPubkey = db.deposit.find node.getPubkey := by
  cases apply_eq_ok_iff.mp done with
  | greeted => exact ⟨member, rfl⟩
  | issued => exact ⟨member, rfl⟩
  | @created signers name pubkey _ _ _ freshName freshCode =>
      have otherName : node.name ≠ name :=
        Table.find_eq_none_iff.mp freshName node member
      have otherCode := matched.ne_of_fresh freshCode member
      refine ⟨mem_register.mpr (Or.inr ⟨member, otherName⟩), ?_⟩
      rw [Tables.find_deposit_register, if_neg otherCode]
  | @deleted signers name pubkey _ _ _ registered =>
      have otherName : node.name ≠ name :=
        fun same => of_decide_eq_false unconcerned same.symm
      have otherCode : node.getPubkey ≠ stringToName pubkey := by
        intro same
        have sameNode := matched.codesDiffer node member _
          (Table.mem_of_find registered) same
        exact otherName (congrArg StNodeinfo.name sameNode)
      refine ⟨mem_unregister.mpr ⟨member, otherName⟩, ?_⟩
      rw [Tables.find_deposit_unregister, if_neg otherCode]
  | @reported signers pubkey =>
      have otherCode : node.getPubkey ≠ stringToName pubkey :=
        fun same => of_decide_eq_false unconcerned same.symm
      refine ⟨?_, ?_⟩
      · rw [Tables.nodeinfo_report]
        exact member
      · rw [Tables.find_deposit_report, if_neg otherCode]

/-- A lookup by the code of a node returns that node. -/
theorem found_eq_of_report (matched : db.Matched)
    (member : node ∈ db.nodeinfo.rows) {pubkey : StdString}
    (sameCode : stringToName pubkey = node.getPubkey) {found : StNodeinfo}
    (lookup : db.nodeinfo.findBy StNodeinfo.getPubkey (stringToName pubkey) =
      some found) : found = node := by
  rw [sameCode, matched.findBy_getPubkey member] at lookup
  exact (Option.some.inj lookup).symm

/-! ### One step of the past -/

/-- A new node carries zeros. -/
private theorem reportedBy_of_created {past : List Transaction}
    {signers : List AccountName} {name : AccountName} {pubkey : StdString} :
    ReportedBy (past ++ [⟨signers, .createacnt name pubkey⟩])
      (db.register name pubkey) ⟨name, pubkey⟩ := by
  have written :
      (db.register name pubkey).deposit.find (stringToName pubkey) =
        some ⟨pubkey, 0, 0, 0, 0⟩ := by
    rw [Tables.find_deposit_register, if_pos rfl]
  exact SinceLast.of_starts rfl ⟨_, written, rfl, rfl⟩

/-- An action that does not concern a node adds nothing to its past. -/
private theorem ReportedBy.of_not_concerns {past : List Transaction}
    (holds : ReportedBy past db node) (matched : db.Matched)
    (done : apply self db tx = .ok after) (member : node ∈ db.nodeinfo.rows)
    (unconcerned : tx.action.concerns node = false) :
    ReportedBy (past ++ [tx]) after node := by
  have uncreated : ¬ tx.action.creates node.name := by
    rw [Bool.not_eq_true]
    obtain ⟨signers, action⟩ := tx
    cases action with
    | createacnt name pubkey => exact unconcerned
    | hello user => rfl
    | deleteacnt name pubkey => rfl
    | moddeposit pubkey score cpu disk net => rfl
    | issue => rfl
  have unchanged :=
    (find_deposit_of_not_concerns matched done member unconcerned).2
  have silent := reportFor_of_not_concerns unconcerned
  apply SinceLast.append holds uncreated
  intro later carries
  rw [lastReport_append_of_none silent, Carries, unchanged]
  exact carries

/-- A report for the code of a node becomes its metrics. -/
private theorem ReportedBy.of_report {past : List Transaction}
    (holds : ReportedBy past db node) {signers : List AccountName}
    {pubkey : StdString} {score cpu disk net : UInt64}
    (sameCode : stringToName pubkey = node.getPubkey)
    (signed : node.name ∈ signers) :
    ReportedBy (past ++ [⟨signers, .moddeposit pubkey score cpu disk net⟩])
      (db.report (stringToName pubkey) ⟨score, cpu, disk, net⟩) node := by
  have reported :
      reportFor node ⟨signers, .moddeposit pubkey score cpu disk net⟩ =
        some ⟨score, cpu, disk, net⟩ :=
    if_pos ⟨List.contains_iff_mem.mpr signed, sameCode⟩
  have uncreated :
      ¬ (Action.moddeposit pubkey score cpu disk net).creates node.name :=
    Bool.false_ne_true
  apply SinceLast.append holds uncreated
  intro later carries
  obtain ⟨row, found, samePubkey, _⟩ := carries
  rw [lastReport_append_of_some reported]
  refine ⟨row.withMetrics ⟨score, cpu, disk, net⟩, ?_, samePubkey, rfl⟩
  rw [Tables.find_deposit_report, if_pos sameCode.symm, sameCode, found,
    Option.map_some]

theorem reportedBy_step {past : List Transaction} (matched : db.Matched)
    (done : apply self db tx = .ok after)
    (holds : ∀ node ∈ db.nodeinfo.rows, ReportedBy past db node)
    (member : node ∈ after.nodeinfo.rows) :
    ReportedBy (past ++ [tx]) after node := by
  have unconcerned : node ∈ db.nodeinfo.rows →
      tx.action.concerns node = false → ReportedBy (past ++ [tx]) after node :=
    fun old => (holds node old).of_not_concerns matched done old
  cases apply_eq_ok_iff.mp done with
  | greeted => exact unconcerned member rfl
  | issued => exact unconcerned member rfl
  | @created signers name pubkey =>
      rcases mem_register.mp member with new | ⟨old, otherName⟩
      · rw [new]
        exact reportedBy_of_created
      · exact unconcerned old (decide_eq_false otherName.symm)
  | @deleted signers name pubkey =>
      obtain ⟨old, otherName⟩ := mem_unregister.mp member
      exact unconcerned old (decide_eq_false otherName.symm)
  | @reported signers pubkey score cpu disk net found _ lookup signed =>
      have old : node ∈ db.nodeinfo.rows := by
        rwa [Tables.nodeinfo_report] at member
      by_cases sameCode : stringToName pubkey = node.getPubkey
      · rw [found_eq_of_report matched old sameCode lookup] at signed
        exact (holds node old).of_report sameCode signed
      · exact unconcerned old (decide_eq_false sameCode)

/-! ### The metrics at the end of a run -/

theorem reportedBy_run (self : AccountName) (txs : List Transaction) :
    ∀ node ∈ (run (apply self) Tables.empty txs).nodeinfo.rows,
      ReportedBy (log (apply self) Tables.empty txs)
        (run (apply self) Tables.empty txs) node := by
  have atStart :
      Tables.empty.Matched ∧
        ∀ node ∈ Tables.empty.nodeinfo.rows,
          ReportedBy [] Tables.empty node := by
    refine ⟨matched_empty, ?_⟩
    intro node member
    cases member
  have atEnd :
      (run (apply self) Tables.empty txs).Matched ∧
        ∀ node ∈ (run (apply self) Tables.empty txs).nodeinfo.rows,
          ReportedBy (log (apply self) Tables.empty txs)
            (run (apply self) Tables.empty txs) node := by
    refine trace_induction
      (P := fun past db => db.Matched ∧ ∀ node ∈ db.nodeinfo.rows,
        ReportedBy (past.map Transition.action) db node)
      atStart ?_ txs
    intro past db tx after holds done
    refine ⟨matched_apply holds.1 done, ?_⟩
    intro node member
    rw [List.map_append]
    exact reportedBy_step holds.1 done holds.2 member
  exact atEnd.2

/-- Every registered node was registered by an action of the run. -/
theorem registration_of_mem_run {self : AccountName} {txs : List Transaction}
    {node : StNodeinfo}
    (member : node ∈ (run (apply self) Tables.empty txs).nodeinfo.rows) :
    ∃ tx ∈ txs, tx.action = .createacnt node.name node.pubkey := by
  obtain ⟨earlier, created, later, past, registration, _⟩ :=
    reportedBy_run self txs node member
  have logged : created ∈ log (apply self) Tables.empty txs := by
    rw [past]
    exact List.mem_append_right earlier List.mem_cons_self
  exact ⟨created, mem_of_mem_log logged, registration⟩

/-- At the end of every run each node carries the last report since its
registration that its account signed for its code, or zeros, and no action that
does not concern a node changes its deposit row. -/
theorem metrics_of_node (self : AccountName) (txs : List Transaction) :
    (∀ node ∈ (run (apply self) Tables.empty txs).nodeinfo.rows,
      ReportedBy (log (apply self) Tables.empty txs)
        (run (apply self) Tables.empty txs) node) ∧
    ∀ t ∈ history self txs, ∀ node ∈ t.before.nodeinfo.rows,
      t.action.action.concerns node = false →
        node ∈ t.after.nodeinfo.rows ∧
          t.after.deposit.find node.getPubkey =
            t.before.deposit.find node.getPubkey := by
  constructor
  · exact reportedBy_run self txs
  · intro t recorded node member unconcerned
    have matched :=
      matched_of_reachable (reachable_before_of_mem_trace recorded)
    exact find_deposit_of_not_concerns matched (step_of_mem_trace recorded)
      member unconcerned

theorem metrics_of_node_registeredRun :
    ReportedBy (log (apply 1) Tables.empty registeredRun)
      (run (apply 1) Tables.empty registeredRun) ⟨2, [97, 98]⟩ :=
  (metrics_of_node 1 registeredRun).1 ⟨2, [97, 98]⟩ (by decide)

end Bright.Award

import Bright.Award.Registry
import Bright.Lib.Reordering

/-!
# Actions for different nodes can be interleaved

An action reads and writes the rows of one account name and of one public key
code.  Two actions that share neither can be exchanged, whether they succeed or
not, so what a run does depends only on the order of the actions for each name
and for each code.
-/

namespace Bright.Award

open Bright.Lib Bright.Eosio Bright.Name

/-- A row of the contract: of an account name, or of a public key code. -/
inductive Place where
  | node (name : AccountName)
  | code (code : UInt64)
deriving DecidableEq

/-- The places that an action looks at. -/
def Action.places : Action → List Place
  | .hello _ => []
  | .createacnt name pubkey => [.node name, .code (stringToName pubkey)]
  | .deleteacnt name pubkey => [.node name, .code (stringToName pubkey)]
  | .moddeposit pubkey _ _ _ _ => [.code (stringToName pubkey)]
  | .issue => []

/-- Two actions look at a common place. -/
def Meets (tx other : Transaction) : Prop :=
  ∃ place ∈ tx.action.places, place ∈ other.action.places

instance decidableMeets (tx other : Transaction) : Decidable (Meets tx other) :=
  inferInstanceAs (Decidable (∃ place ∈ tx.action.places, _))

/-- What is found at a place: a node, or the node and the metrics of a code. -/
def Found : Place → Type
  | .node _ => Option StNodeinfo
  | .code _ => Option StNodeinfo × Option StDeposit

def Tables.view (db : Tables) : ∀ place, Found place
  | .node name => db.nodeinfo.find name
  | .code code =>
      (db.nodeinfo.findBy StNodeinfo.getPubkey code, db.deposit.find code)

variable {self : AccountName} {db other after : Tables} {tx : Transaction}

/-! ### Lookups by code -/

theorem findBy_register {name : AccountName} {pubkey : StdString} {code : UInt64}
    (freshName : db.nodeinfo.find name = none)
    (different : code ≠ stringToName pubkey) :
    (db.register name pubkey).nodeinfo.findBy StNodeinfo.getPubkey code =
      db.nodeinfo.findBy StNodeinfo.getPubkey code :=
  Table.findBy_put_of_ne freshName different.symm

theorem findBy_unregister {name : AccountName} {pubkey : StdString}
    {code : UInt64} (registered : db.nodeinfo.find name = some ⟨name, pubkey⟩)
    (different : code ≠ stringToName pubkey) :
    (db.unregister name pubkey).nodeinfo.findBy StNodeinfo.getPubkey code =
      db.nodeinfo.findBy StNodeinfo.getPubkey code := by
  apply Table.findBy_erase_of_ne
  intro row member isName sameCode
  have isRow : row = ⟨name, pubkey⟩ :=
    db.nodeinfo.eq_of_key_eq member (Table.mem_of_find registered) isName
  rw [isRow] at sameCode
  exact different sameCode.symm

/-- No other node has the code of a node that has been removed. -/
theorem findBy_unregistered (matched : db.Matched) {name : AccountName}
    {pubkey : StdString} (registered : db.nodeinfo.find name = some ⟨name, pubkey⟩) :
    (db.unregister name pubkey).nodeinfo.findBy StNodeinfo.getPubkey
        (stringToName pubkey) = none := by
  rw [Table.findBy_eq_none_iff]
  intro node member sameCode
  obtain ⟨stored, otherName⟩ := mem_unregister.mp member
  have isNode := matched.codesDiffer node stored _ (Table.mem_of_find registered)
    sameCode
  exact otherName (congrArg StNodeinfo.name isNode)

/-! ### What an action leaves at its places -/

theorem view_register {name : AccountName} {pubkey : StdString}
    (matched : (db.register name pubkey).Matched) :
    (db.register name pubkey).view (.node name) = some ⟨name, pubkey⟩ ∧
      (db.register name pubkey).view (.code (stringToName pubkey)) =
        (some ⟨name, pubkey⟩, some ⟨pubkey, 0, 0, 0, 0⟩) := by
  refine ⟨(Tables.find_nodeinfo_register name).trans (if_pos rfl), ?_⟩
  refine Prod.ext ?_ (Tables.find_deposit_register.trans (if_pos rfl))
  exact matched.findBy_getPubkey (mem_register.mpr (Or.inl rfl))

theorem view_unregister (matched : db.Matched) {name : AccountName}
    {pubkey : StdString} (registered : db.nodeinfo.find name = some ⟨name, pubkey⟩) :
    (db.unregister name pubkey).view (.node name) = none ∧
      (db.unregister name pubkey).view (.code (stringToName pubkey)) =
        (none, none) := by
  refine ⟨(Tables.find_nodeinfo_unregister name).trans (if_pos rfl), ?_⟩
  exact Prod.ext (findBy_unregistered matched registered)
    (Tables.find_deposit_unregister.trans (if_pos rfl))

theorem view_report (code : UInt64) (metrics : Metrics) :
    (db.report code metrics).view (.code code) =
      (db.nodeinfo.findBy StNodeinfo.getPubkey code,
        (db.deposit.find code).map fun row => row.withMetrics metrics) := by
  refine Prod.ext ?_ (Tables.find_deposit_report.trans (if_pos rfl))
  have sameNodes : (db.report code metrics).nodeinfo = db.nodeinfo :=
    Tables.nodeinfo_report
  exact congrArg (fun nodes : Node => nodes.findBy _ code) sameNodes

/-! ### The footprint of an action -/

/-- What is not at a place of the action stays. -/
theorem view_apply (done : apply self db tx = .ok after) {place : Place}
    (outside : place ∉ tx.action.places) : after.view place = db.view place := by
  cases apply_eq_ok_iff.mp done with
  | greeted => rfl
  | issued => rfl
  | @created signers name pubkey _ _ _ freshName _ =>
      simp only [Action.places, List.mem_cons, List.not_mem_nil, or_false,
        not_or] at outside
      cases place with
      | node other =>
          have different : other ≠ name := fun same => outside.1 (same ▸ rfl)
          exact (Tables.find_nodeinfo_register other).trans (if_neg different)
      | code code =>
          have different : code ≠ stringToName pubkey :=
            fun same => outside.2 (same ▸ rfl)
          have sameNode := findBy_register freshName different
          have sameDeposit : (db.register name pubkey).deposit.find code =
              db.deposit.find code :=
            Tables.find_deposit_register.trans (if_neg different)
          exact Prod.ext sameNode sameDeposit
  | @deleted signers name pubkey _ _ _ registered =>
      simp only [Action.places, List.mem_cons, List.not_mem_nil, or_false,
        not_or] at outside
      cases place with
      | node other =>
          have different : other ≠ name := fun same => outside.1 (same ▸ rfl)
          exact (Tables.find_nodeinfo_unregister other).trans (if_neg different)
      | code code =>
          have different : code ≠ stringToName pubkey :=
            fun same => outside.2 (same ▸ rfl)
          have sameNode := findBy_unregister registered different
          have sameDeposit : (db.unregister name pubkey).deposit.find code =
              db.deposit.find code :=
            Tables.find_deposit_unregister.trans (if_neg different)
          exact Prod.ext sameNode sameDeposit
  | @reported signers pubkey score cpu disk net node _ _ _ =>
      simp only [Action.places, List.mem_singleton] at outside
      cases place with
      | node name =>
          have sameNodes : (db.report (stringToName pubkey)
              ⟨score, cpu, disk, net⟩).nodeinfo = db.nodeinfo :=
            Tables.nodeinfo_report
          exact congrArg (fun nodes : Node => nodes.find name) sameNodes
      | code code =>
          have different : code ≠ stringToName pubkey :=
            fun same => outside (same ▸ rfl)
          have sameNodes : (db.report (stringToName pubkey)
              ⟨score, cpu, disk, net⟩).nodeinfo = db.nodeinfo :=
            Tables.nodeinfo_report
          exact Prod.ext (congrArg (fun nodes : Node => nodes.findBy _ code) sameNodes)
            (Tables.find_deposit_report.trans (if_neg different))

/-- Tables that look alike at the places of an action are changed alike. -/
theorem apply_of_view (matched : db.Matched) (otherMatched : other.Matched)
    (same : ∀ place ∈ tx.action.places, db.view place = other.view place)
    (done : apply self db tx = .ok after) :
    ∃ otherAfter, apply self other tx = .ok otherAfter ∧
      ∀ place ∈ tx.action.places, after.view place = otherAfter.view place := by
  have afterMatched := matched_apply matched done
  cases apply_eq_ok_iff.mp done with
  | greeted =>
      exact ⟨other, apply_eq_ok_iff.mpr .greeted, List.forall_mem_nil _⟩
  | issued =>
      exact ⟨other, apply_eq_ok_iff.mpr .issued, List.forall_mem_nil _⟩
  | @created signers name pubkey positive nonempty signed freshName freshCode =>
      have sameName := same (.node name) List.mem_cons_self
      have sameCode := same (.code (stringToName pubkey))
        (List.mem_cons_of_mem _ List.mem_cons_self)
      have otherDone : apply self other ⟨signers, .createacnt name pubkey⟩ =
          .ok (other.register name pubkey) :=
        apply_eq_ok_iff.mpr (.created positive nonempty signed
          (sameName.symm.trans freshName)
          ((congrArg Prod.snd sameCode).symm.trans freshCode))
      have atName := view_register afterMatched
      have otherAtName := view_register (matched_apply otherMatched otherDone)
      refine ⟨_, otherDone, List.forall_mem_cons.mpr ⟨?_, ?_⟩⟩
      · rw [atName.1, otherAtName.1]
      · rw [List.forall_mem_singleton, atName.2, otherAtName.2]
  | @deleted signers name pubkey positive nonempty signed registered =>
      have sameName := same (.node name) List.mem_cons_self
      have otherRegistered : other.nodeinfo.find name = some ⟨name, pubkey⟩ :=
        sameName.symm.trans registered
      have otherDone : apply self other ⟨signers, .deleteacnt name pubkey⟩ =
          .ok (other.unregister name pubkey) :=
        apply_eq_ok_iff.mpr (.deleted positive nonempty signed otherRegistered)
      have atName := view_unregister matched registered
      have otherAtName := view_unregister otherMatched otherRegistered
      refine ⟨_, otherDone, List.forall_mem_cons.mpr ⟨?_, ?_⟩⟩
      · rw [atName.1, otherAtName.1]
      · rw [List.forall_mem_singleton, atName.2, otherAtName.2]
  | @reported signers pubkey score cpu disk net node nonempty found signed =>
      have sameCode := same (.code (stringToName pubkey)) List.mem_cons_self
      have sameNode : db.nodeinfo.findBy StNodeinfo.getPubkey (stringToName pubkey) =
          other.nodeinfo.findBy StNodeinfo.getPubkey (stringToName pubkey) :=
        congrArg Prod.fst sameCode
      have sameDeposit : db.deposit.find (stringToName pubkey) =
          other.deposit.find (stringToName pubkey) := congrArg Prod.snd sameCode
      have otherDone : apply self other
          ⟨signers, .moddeposit pubkey score cpu disk net⟩ =
            .ok (other.report (stringToName pubkey) ⟨score, cpu, disk, net⟩) :=
        apply_eq_ok_iff.mpr (.reported nonempty (sameNode.symm.trans found) signed)
      refine ⟨_, otherDone, List.forall_mem_singleton.mpr ?_⟩
      rw [view_report, view_report, sameNode, sameDeposit]

/-! ### Interleavings -/

theorem eq_of_view (same : ∀ place, db.view place = other.view place) :
    db = other := by
  apply Tables.ext
  · exact Table.ext_find fun name => same (.node name)
  · exact Table.ext_find fun code => congrArg Prod.snd (same (.code code))

/-- The actions read and write their places, and nothing else. -/
theorem footprint_apply (self : AccountName) :
    Footprint (apply self) Tables.Matched Tables.view
      (fun tx => {place | place ∈ tx.action.places})
      (fun tx => {place | place ∈ tx.action.places}) (fun _ _ value => value) where
  keeps := fun _ _ _ matched done => matched_apply matched done
  determined := fun _ _ _ _ => eq_of_view
  frame := fun _ _ _ _ done _ outside => view_apply done outside
  locality := fun _ _ _ _ matched otherMatched same done =>
    apply_of_view matched otherMatched same done
  commute := fun _ _ _ _ => rfl

/-- In whatever order the actions of a run come, as long as it is the same for
the actions that look at a common account name or public key code, the run ends
in the same tables, and the same actions succeed in it. -/
theorem registry_interleaved {self : AccountName} {db : Tables}
    {txs reordered : List Transaction}
    (reached : Reachable (apply self) Tables.empty db)
    (reorders : Reordering Meets txs reordered) :
    run (apply self) db txs = run (apply self) db reordered ∧
      (log (apply self) db txs).Perm (log (apply self) db reordered) := by
  have footprint := footprint_apply self
  refine run_of_reordering footprint.inv_attempt ?_ reorders
    (matched_of_reachable reached)
  intro tx other apart apartBack
  apply footprint.exchangeable
  · rintro place (known | known) <;>
      exact ⟨fun shared => apart ⟨place, known, shared⟩, fun _ => rfl⟩
  · rintro place (known | known) <;>
      exact ⟨fun shared => apartBack ⟨place, known, shared⟩, fun _ => rfl⟩

/-- A report of node `3` and the removal of node `2` can be exchanged. -/
theorem registry_interleaved_registeredRun :
    run (apply 1) (run (apply 1) Tables.empty registeredRun)
        [⟨[3], .moddeposit [99] 5 6 7 8⟩, ⟨[1], .deleteacnt 2 [97, 98]⟩] =
      run (apply 1) (run (apply 1) Tables.empty registeredRun)
        [⟨[1], .deleteacnt 2 [97, 98]⟩, ⟨[3], .moddeposit [99] 5 6 7 8⟩] ∧
    (log (apply 1) (run (apply 1) Tables.empty registeredRun)
        [⟨[3], .moddeposit [99] 5 6 7 8⟩, ⟨[1], .deleteacnt 2 [97, 98]⟩]).Perm
      (log (apply 1) (run (apply 1) Tables.empty registeredRun)
        [⟨[1], .deleteacnt 2 [97, 98]⟩, ⟨[3], .moddeposit [99] 5 6 7 8⟩]) :=
  registry_interleaved (reachable_run registeredRun)
    (reordering_swap [] [] (by decide) (by decide))

end Bright.Award

import Bright.Keephand.Order
import Bright.Keephand.Splitting
import Bright.Lib.Reordering

/-!
# Actions that can be interleaved

What an action needs of the balances is the balance of the account that pays.
Of the other accounts it needs only that they are open, and it adds to what they
hold, so savings and transfers to one account, and the fees of transfers, can be
exchanged.  A withdrawal sets the row of `self` and can not be exchanged with
anything that adds to it.
-/

namespace Bright.Keephand

open Bright.Lib Bright.Eosio

/-- The accounts that an action opens, closes or pays from, or whose funds it
sets. -/
def Action.settles (self : AccountName) : Action → List AccountName
  | .createacnt name _ => [name]
  | .deleteacnt name => [name]
  | .modasset _ _ true => []
  | .modasset name _ false => [name, self]
  | .transfer sender _ _ _ => [sender]

/-- All the accounts that an action looks up. -/
def Action.visits (self : AccountName) : Action → List AccountName
  | .createacnt name _ => [name]
  | .deleteacnt name => [name]
  | .modasset name _ true => [name]
  | .modasset name _ false => [name, self]
  | .transfer sender receiver _ _ => [sender, receiver, self]

/-- One of two actions settles an account that the other one visits. -/
def Conflicts (self : AccountName) (tx other : Transaction) : Prop :=
  (∃ account ∈ tx.action.settles self, account ∈ other.action.visits self) ∨
    ∃ account ∈ other.action.settles self, account ∈ tx.action.visits self

instance decidableConflicts (self : AccountName) (tx other : Transaction) :
    Decidable (Conflicts self tx other) :=
  inferInstanceAs (Decidable (_ ∨ _))

/-- The accounts that an action opens or closes. -/
def Action.opens : Action → List AccountName
  | .createacnt name _ => [name]
  | .deleteacnt name => [name]
  | _ => []

/-- The registration of an account, and its funds. -/
inductive Place where
  | account (name : AccountName)
  | funds (name : AccountName)

def Found : Place → Type
  | .account _ => Option StUserinfo
  | .funds _ => ℚ

def Tables.view (db : Tables) : ∀ place, Found place
  | .account name => db.userinfo.find name
  | .funds name => db.balance name

def reads (self : AccountName) (tx : Transaction) : Set Place :=
  {place | match place with
    | .account name => name ∈ tx.action.visits self
    | .funds name => name ∈ tx.action.settles self}

def writes (self : AccountName) (tx : Transaction) : Set Place :=
  {place | match place with
    | .account name => name ∈ tx.action.opens
    | .funds name => name ∈ tx.action.settles self}

/-- What an action does to a place that it does not write. -/
def adds (self : AccountName) (tx : Transaction) :
    ∀ place, Found place → Found place
  | .account _ => id
  | .funds name => fun balance : ℚ => balance + movement self tx.action name

variable {self name : AccountName} {db other after : Tables} {tx : Transaction}

theorem settles_of_opens {action : Action} (opened : name ∈ action.opens) :
    name ∈ action.settles self := by
  cases action with
  | createacnt created pubkey => exact opened
  | deleteacnt deleted => exact opened
  | modasset saver funds bsaving => exact absurd opened List.not_mem_nil
  | transfer sender receiver funds strremark =>
      exact absurd opened List.not_mem_nil

theorem visits_of_settles {action : Action} (settled : name ∈ action.settles self) :
    name ∈ action.visits self := by
  cases action with
  | createacnt created pubkey => exact settled
  | deleteacnt deleted => exact settled
  | modasset saver funds bsaving =>
      cases bsaving with
      | true => exact absurd settled List.not_mem_nil
      | false => exact settled
  | transfer sender receiver funds strremark =>
      rw [List.mem_singleton.mp settled]
      exact List.mem_cons_self

theorem movement_of_not_visits {action : Action}
    (unvisited : name ∉ action.visits self) : movement self action name = 0 := by
  cases action with
  | createacnt created pubkey => rfl
  | deleteacnt deleted => rfl
  | modasset saver funds bsaving =>
      cases bsaving with
      | true =>
          exact Pi.single_eq_of_ne (fun same => unvisited (by simp [Action.visits, same])) _
      | false =>
          simp only [Action.visits, List.mem_cons, List.not_mem_nil, or_false,
            not_or] at unvisited
          rw [movement, Pi.add_apply, Pi.single_eq_of_ne unvisited.1,
            Pi.single_eq_of_ne unvisited.2, add_zero]
  | transfer sender receiver funds strremark =>
      simp only [Action.visits, List.mem_cons, List.not_mem_nil, or_false,
        not_or] at unvisited
      rw [movement, Pi.add_apply, Pi.add_apply, Pi.single_eq_of_ne unvisited.1,
        Pi.single_eq_of_ne unvisited.2.1, Pi.single_eq_of_ne unvisited.2.2,
        add_zero, add_zero]

/-! ### The footprint of an action -/

theorem userinfo_apply (done : apply self db tx = .ok after)
    (unopened : name ∉ tx.action.opens) :
    after.userinfo.find name = db.userinfo.find name := by
  cases apply_eq_ok_iff.mp done with
  | created =>
      have different := mt List.mem_singleton.mpr unopened
      exact (Table.find_put db.userinfo _ name).trans (if_neg different)
  | deleted =>
      have different := mt List.mem_singleton.mpr unopened
      exact (Table.find_erase db.userinfo _ name).trans (if_neg different)
  | saved => rfl
  | withdrew => rfl
  | transferred => rfl

theorem balance_of_not_settles (done : apply self db tx = .ok after)
    (unsettled : name ∉ tx.action.settles self) :
    after.balance name = db.balance name + movement self tx.action name := by
  cases apply_eq_ok_iff.mp done with
  | created =>
      have different := mt List.mem_singleton.mpr unsettled
      rw [balance_createacnt done, Function.update_of_ne different]
      exact (add_zero _).symm
  | deleted =>
      have different := mt List.mem_singleton.mpr unsettled
      rw [balance_deleteacnt done, Function.update_of_ne different]
      exact (add_zero _).symm
  | saved => exact Tables.balance_credit
  | withdrew =>
      have unvisited := unsettled
      simp only [Action.settles, List.mem_cons, List.not_mem_nil, or_false,
        not_or] at unsettled
      rw [Tables.balance_setFunds, Tables.balance_setFunds,
        if_neg unsettled.1, if_neg unsettled.2,
        movement_of_not_visits unvisited, add_zero]
  | transferred => exact balance_eq_add_movement done

/-- What an action does not write, it leaves alone or adds to. -/
theorem view_apply (done : apply self db tx = .ok after) {place : Place}
    (unwritten : place ∉ writes self tx) :
    after.view place = adds self tx place (db.view place) := by
  cases place with
  | account name => exact userinfo_apply done unwritten
  | funds name => exact balance_of_not_settles done unwritten

theorem forall_mem_writes {P : Place → Prop} :
    (∀ place ∈ writes self tx, P place) ↔
      (∀ name ∈ tx.action.opens, P (.account name)) ∧
        ∀ name ∈ tx.action.settles self, P (.funds name) := by
  constructor
  · intro all
    exact ⟨fun name => all (.account name), fun name => all (.funds name)⟩
  · rintro ⟨accounts, funds⟩ (name | name)
    · exact accounts name
    · exact funds name

/-- Tables that look alike where an action reads are changed alike. -/
theorem apply_of_view (valid : db.Valid) (otherValid : other.Valid)
    (same : ∀ place ∈ reads self tx, db.view place = other.view place)
    (done : apply self db tx = .ok after) :
    ∃ otherAfter, apply self other tx = .ok otherAfter ∧
      ∀ place ∈ writes self tx, after.view place = otherAfter.view place := by
  have sameUsers : ∀ name ∈ tx.action.visits self,
      (name ∈ db.userinfo.keys ↔ name ∈ other.userinfo.keys) := by
    intro name visited
    have sameUser : db.userinfo.find name = other.userinfo.find name :=
      same (.account name) visited
    rw [Table.mem_keys, Table.mem_keys, sameUser]
  have sameAssets : ∀ name ∈ tx.action.visits self,
      (name ∈ db.userasset.keys ↔ name ∈ other.userasset.keys) := by
    intro name visited
    rw [← valid.sameNames, ← otherValid.sameNames]
    exact sameUsers name visited
  have sameBalance : ∀ name ∈ tx.action.settles self,
      db.balance name = other.balance name :=
    fun name settled => same (.funds name) settled
  simp only [forall_mem_writes]
  cases apply_eq_ok_iff.mp done with
  | @created signers name pubkey positive nonempty signed freshUser freshAsset =>
      have otherDone : apply self other ⟨signers, .createacnt name pubkey⟩ =
          .ok ⟨other.userinfo.put ⟨name, pubkey⟩, other.userasset.put ⟨name, 0⟩⟩ :=
        apply_eq_ok_iff.mpr (.created positive nonempty signed
          (mt (sameUsers name List.mem_cons_self).mpr freshUser)
          (mt (sameAssets name List.mem_cons_self).mpr freshAsset))
      have registration : ∀ users : User,
          (users.put ⟨name, pubkey⟩).find name = some ⟨name, pubkey⟩ :=
        fun users => (Table.find_put users _ name).trans (if_pos rfl)
      refine ⟨_, otherDone, List.forall_mem_singleton.mpr ?_,
        List.forall_mem_singleton.mpr ?_⟩
      · exact (registration db.userinfo).trans (registration other.userinfo).symm
      · rw [Tables.view, Tables.view, balance_createacnt done,
          balance_createacnt otherDone, Function.update_self, Function.update_self]
  | @deleted signers name positive signed registered =>
      have otherDone : apply self other ⟨signers, .deleteacnt name⟩ =
          .ok ⟨other.userinfo.erase name, other.userasset.erase name⟩ :=
        apply_eq_ok_iff.mpr (.deleted positive signed
          ((sameUsers name List.mem_cons_self).mp registered))
      have registration : ∀ users : User, (users.erase name).find name = none :=
        fun users => (Table.find_erase users name name).trans (if_pos rfl)
      refine ⟨_, otherDone, List.forall_mem_singleton.mpr ?_,
        List.forall_mem_singleton.mpr ?_⟩
      · exact (registration db.userinfo).trans (registration other.userinfo).symm
      · rw [Tables.view, Tables.view, balance_deleteacnt done,
          balance_deleteacnt otherDone, Function.update_self, Function.update_self]
  | @saved signers name funds positive fundsPositive registered signed funded =>
      have otherDone : apply self other ⟨signers, .modasset name funds true⟩ =
          .ok (other.credit name funds) :=
        apply_eq_ok_iff.mpr (.saved positive fundsPositive
          ((sameUsers name List.mem_cons_self).mp registered) signed
          ((sameAssets name List.mem_cons_self).mp funded))
      exact ⟨_, otherDone, List.forall_mem_nil _, List.forall_mem_nil _⟩
  | @withdrew signers name funds positive fundsPositive registered signed funded
      enough owner =>
      have drawn := sameBalance name List.mem_cons_self
      have otherDone : apply self other ⟨signers, .modasset name funds false⟩ =
          .ok ((other.setFunds self (funds * feeRate)).setFunds name
            (other.balance name - funds - funds * feeRate)) :=
        apply_eq_ok_iff.mpr (.withdrew positive fundsPositive
          ((sameUsers name List.mem_cons_self).mp registered) signed
          ((sameAssets name List.mem_cons_self).mp funded) (drawn ▸ enough)
          ((sameAssets self (List.mem_cons_of_mem _ List.mem_cons_self)).mp owner))
      refine ⟨_, otherDone, List.forall_mem_nil _, ?_⟩
      have written : ∀ account ∈ [name, self],
          ((db.setFunds self (funds * feeRate)).setFunds name
              (db.balance name - funds - funds * feeRate)).balance account =
            ((other.setFunds self (funds * feeRate)).setFunds name
              (other.balance name - funds - funds * feeRate)).balance account := by
        intro account member
        simp only [Tables.balance_setFunds, drawn]
        split_ifs with isName isSelf
        · rfl
        · rfl
        · exact absurd member (by simp [isName, isSelf])
      exact written
  | @transferred signers sender receiver funds strremark positive
      receiverPositive fundsPositive signed registered funded enough _ _ owner _ =>
      have paid := sameBalance sender List.mem_cons_self
      rw [paid] at enough
      have isReceiver : receiver ∈
          (Action.transfer sender receiver funds strremark).visits self :=
        List.mem_cons_of_mem _ List.mem_cons_self
      have isSelf : self ∈
          (Action.transfer sender receiver funds strremark).visits self :=
        List.mem_cons_of_mem _ (List.mem_cons_of_mem _ List.mem_cons_self)
      have covered : funds + statedFee funds ≤ other.balance sender := by
        rw [← transferFee_eq_statedFee]
        linarith
      have otherDone : apply self other
          ⟨signers, .transfer sender receiver funds strremark⟩ = .ok _ :=
        apply_eq_ok_iff.mpr (transfer_effect otherValid signed positive
          receiverPositive fundsPositive
          ((sameUsers receiver isReceiver).mp registered)
          ((sameAssets sender List.mem_cons_self).mp funded)
          ((sameAssets self isSelf).mp owner) covered)
      refine ⟨_, otherDone, List.forall_mem_nil _, List.forall_mem_singleton.mpr ?_⟩
      rw [Tables.view, Tables.view, balance_eq_add_movement done,
        balance_eq_add_movement otherDone, paid]

/-! ### Interleavings -/

theorem eq_of_view (valid : db.Valid) (otherValid : other.Valid)
    (same : ∀ place, db.view place = other.view place) : db = other := by
  have users : db.userinfo = other.userinfo :=
    Table.ext_find fun name => same (.account name)
  have keys : db.userasset.keys = other.userasset.keys := by
    rw [← valid.sameNames, ← otherValid.sameNames, users]
  apply Tables.ext users
  exact (userasset_ext_iff keys).mpr fun name _ => same (.funds name)

theorem footprint_apply (self : AccountName) :
    Footprint (apply self) Tables.Valid Tables.view (reads self) (writes self)
      (adds self) where
  keeps := fun _ _ _ valid done => valid_apply valid done
  determined := fun _ _ valid otherValid => eq_of_view valid otherValid
  frame := fun _ _ _ _ done _ unwritten => view_apply done unwritten
  locality := fun _ _ _ _ valid otherValid same done =>
    apply_of_view valid otherValid same done
  commute := by
    rintro tx other (name | name) value
    · rfl
    · have exchange : ∀ balance first second : ℚ,
          balance + first + second = balance + second + first := add_right_comm
      exact exchange value _ _

/-- Without a conflict, an action does not notice another one. -/
theorem undisturbed_of_not_conflicts {tx other : Transaction}
    (apart : ¬ Conflicts self tx other) :
    Undisturbed (reads self) (writes self) (adds self) tx other := by
  rw [Conflicts, not_or] at apart
  obtain ⟨unvisited, unsettled⟩ := apart
  rintro (name | name) known
  · have visited : name ∈ tx.action.visits self := by
      rcases known with visited | opened
      · exact visited
      · exact visits_of_settles (settles_of_opens opened)
    exact ⟨fun opened => unsettled ⟨name, settles_of_opens opened, visited⟩,
      fun _ => rfl⟩
  · have settled : name ∈ tx.action.settles self := by
      rcases known with settled | settled <;> exact settled
    have away : name ∉ other.action.visits self := fun visited =>
      unvisited ⟨name, settled, visited⟩
    refine ⟨fun otherSettled => away (visits_of_settles otherSettled), ?_⟩
    have nothing : ∀ balance : ℚ, balance + movement self other.action name =
        balance := by
      intro balance
      rw [movement_of_not_visits away, add_zero]
    exact nothing

/-- In whatever order the actions of a run come, as long as it is the same for
actions of which one settles an account that the other one visits, the run ends
in the same tables, and the same actions succeed in it. -/
theorem ledger_interleaved {self : AccountName} {db : Tables}
    {txs reordered : List Transaction}
    (reached : Reachable (apply self) Tables.empty db)
    (reorders : Reordering (Conflicts self) txs reordered) :
    run (apply self) db txs = run (apply self) db reordered ∧
      (log (apply self) db txs).Perm (log (apply self) db reordered) := by
  have footprint := footprint_apply self
  refine run_of_reordering footprint.inv_attempt ?_ reorders
    (valid_of_reachable reached)
  intro tx other apart apartBack
  exact footprint.exchangeable (undisturbed_of_not_conflicts apart)
    (undisturbed_of_not_conflicts apartBack)

/-- A saving of account `2` and a refused transfer of account `3` to it. -/
theorem ledger_interleaved_savedRun :
    run (apply 1) (run (apply 1) Tables.empty savedRun)
        [⟨[2], .modasset 2 5 true⟩, ⟨[3], .transfer 3 2 1 []⟩] =
      run (apply 1) (run (apply 1) Tables.empty savedRun)
        [⟨[3], .transfer 3 2 1 []⟩, ⟨[2], .modasset 2 5 true⟩] ∧
    (log (apply 1) (run (apply 1) Tables.empty savedRun)
        [⟨[2], .modasset 2 5 true⟩, ⟨[3], .transfer 3 2 1 []⟩]).Perm
      (log (apply 1) (run (apply 1) Tables.empty savedRun)
        [⟨[3], .transfer 3 2 1 []⟩, ⟨[2], .modasset 2 5 true⟩]) :=
  ledger_interleaved (reachable_run savedRun)
    (reordering_swap [] [] (by decide) (by decide))

end Bright.Keephand

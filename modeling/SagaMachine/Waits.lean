import SagaMachine.Saga
import SagaMachine.Signal

/-!
# Pending effects

Every suspended effect of a middleware has an entry in its wait table: whose it is,
what it waits for, and where it reports. An effect on its own reports to its task, a
member of a race or of an `all` to that combinator, so the table is a forest whose
roots are the effects that tasks are parked on.

Two walks over this forest are defined here, as plain functions of the table:
`Waits.detach` takes an effect and everything below it out of the table, and
`Waits.climb` carries a signal upwards until a task can go on or a combinator is
still incomplete. Both list, in order, what happened on the way.
-/

namespace SagaMachine

/-- Where an effect reports when it settles. -/
inductive Link where
  | task
  | race (id : EffectId) (slot : Nat)
  | all (id : EffectId) (slot : Nat)
deriving DecidableEq, Repr

/-- The combinator that an effect is a member of. -/
def Link.parent? : Link → Option EffectId
  | task => none
  | race id _ => some id
  | all id _ => some id

/-- What an effect waits for. -/
inductive WaitKind where
  | take (source : Source) (taker : TakerId)
  | put
  | call (deferred : DeferredId)
  | join (target : TaskId)
  /-- A race: its keys, if it has them, and the pending members by slot. -/
  | race (keys : Option (List String)) (members : List (Option EffectId))
  /-- An `all`: the results and the pending members by slot, and how many are missing. -/
  | all (results : List (Option Value)) (members : List (Option EffectId)) (remaining : Nat)
deriving Repr

/-- A suspended effect. -/
structure Wait where
  task : TaskId
  link : Link
  kind : WaitKind
deriving Repr

/-- The suspended effects of a middleware. -/
abbrev Waits := Table EffectId Wait

namespace WaitKind

/-- The pending members of a combinator, in order of their slots. -/
def members : WaitKind → List EffectId
  | race _ members => members.filterMap id
  | all _ members _ => members.filterMap id
  | _ => []

/-- Note which effect fills a slot of a combinator. -/
def setMember (k : WaitKind) (slot : Nat) (member : EffectId) : WaitKind :=
  match k with
  | race keys members => race keys (members.set slot (some member))
  | all results members remaining => all results (members.set slot (some member)) remaining
  | k => k

end WaitKind

/-- Something that happened during a walk over the wait table. -/
inductive Passage where
  /-- The effect was taken out before it settled. -/
  | withdrawn (id : EffectId) (wait : Wait)
  | settled (id : EffectId) (signal : Signal)
deriving Repr

/-- A task that goes on: its pending effect settled with a signal. -/
structure Wakeup where
  task : TaskId
  effect : EffectId
  signal : Signal
deriving Repr

namespace Waits

/--
Take effects and everything below them out of the table. Members are withdrawn from
the last slot to the first, each before the rest of the work list.
-/
def detach (waits : Waits) : List EffectId → List Passage × Waits
  | [] => ([], waits)
  | id :: pending =>
    match _h : waits.get? id with
    | none => detach waits pending
    | some wait =>
      let r := detach (waits.erase id) (wait.kind.members.reverse ++ pending)
      (.withdrawn id wait :: r.1, r.2)
termination_by pending => (waits.size, pending.length)
decreasing_by
  · exact Prod.Lex.right _ (Nat.lt_succ_self _)
  · exact Prod.Lex.left _ _ (Table.size_erase_lt _h)

/-- Take each of several effects out of the table, one after the other. -/
def detachEach (waits : Waits) : List EffectId → List Passage × Waits
  | [] => ([], waits)
  | id :: ids =>
    let r := waits.detach [id]
    let s := detachEach r.2 ids
    (r.1 ++ s.1, s.2)

/-- The result of a race that its member in `slot` decided. -/
def raceResult (keys : Option (List String)) (width slot : Nat) : Signal → Signal
  | .value v =>
    match keys with
    | some keys => .value (.map [((keys[slot]?).getD "", v)])
    | none => .value (.list ((List.replicate width Value.unit).set slot v))
  | .fault f => .fault f
  | .ended => .ended

/-- Close a race that was taken out of the table: withdraw the other members. -/
def closeRace (waits : Waits) (kind : WaitKind) (slot : Nat) (signal : Signal) :
    Signal × List Passage × Waits :=
  match kind with
  | .race keys members =>
    let r := waits.detachEach kind.members
    (raceResult keys members.length slot signal, r.1, r.2)
  | _ => (signal, [], waits)

/-- What a member's signal means for its `all`. -/
inductive Merge where
  /-- Other members are still missing. -/
  | waiting
  | complete
  | failed (signal : Signal)
deriving Repr

/-- Record a member's signal in its `all`. -/
def merge (waits : Waits) (id : EffectId) (slot : Nat) (signal : Signal) : Merge × Waits :=
  match waits.get? id with
  | some { task, link, kind := .all results members remaining } =>
    let members := members.set slot none
    match signal with
    | .value v =>
      let kind := .all (results.set slot (some v)) members (remaining - 1)
      (if remaining - 1 = 0 then .complete else .waiting,
        waits.modify id fun _ => { task, link, kind })
    | signal =>
      (.failed signal,
        waits.modify id fun _ => { task, link, kind := .all results members remaining })
  | _ => (.waiting, waits)

/-- The result of an `all` that has all its results. -/
def collect : WaitKind → Signal
  | .all results _ _ => .value (.list (results.map fun r => r.getD .unit))
  | _ => .value (.list [])

/-! ## The walks never add an effect -/

theorem size_detach_le (waits : Waits) (ids : List EffectId) :
    (waits.detach ids).2.size ≤ waits.size := by
  fun_induction detach waits ids with
  | case1 => exact Nat.le_refl _
  | case2 waits id pending h ih => exact ih
  | case3 waits id pending wait h r ih =>
    exact Nat.le_trans ih (Nat.le_of_lt (Table.size_erase_lt h))

theorem size_detachEach_le (waits : Waits) (ids : List EffectId) :
    (waits.detachEach ids).2.size ≤ waits.size := by
  induction ids generalizing waits with
  | nil => exact Nat.le_refl _
  | cons id ids ih => exact Nat.le_trans (ih _) (size_detach_le waits [id])

theorem size_closeRace_le (waits : Waits) (kind : WaitKind) (slot : Nat) (signal : Signal) :
    (waits.closeRace kind slot signal).2.2.size ≤ waits.size := by
  unfold closeRace
  split
  · exact size_detachEach_le waits _
  · exact Nat.le_refl _

theorem size_merge (waits : Waits) (id : EffectId) (slot : Nat) (signal : Signal) :
    (waits.merge id slot signal).2.size = waits.size := by
  unfold merge
  split
  · split <;> exact Table.size_modify ..
  · rfl

/-! ## Settling -/

/-- What a walk upwards comes to: what happened on the way, and the task that goes on. -/
structure Climb where
  passages : List Passage
  wakeup : Option Wakeup
  waits : Waits

/-- Let something happen before a walk goes on. -/
def Climb.after (passages : List Passage) (c : Climb) : Climb :=
  { c with passages := passages ++ c.passages }

/--
Carry the signal of effect `id` up from `link`. A race is decided by its first member
to settle, whatever the signal; an `all` by its first member without a value, or once
all values are there.
-/
def climb (waits : Waits) (task : TaskId) (id : EffectId) (link : Link) (signal : Signal) :
    Climb :=
  match link with
  | .task => ⟨[], some ⟨task, id, signal⟩, waits⟩
  | .race parent slot =>
    match _h : waits.get? parent with
    | none => ⟨[], none, waits⟩
    | some wait =>
      let r := closeRace (waits.erase parent) wait.kind slot signal
      (climb r.2.2 wait.task parent wait.link r.1).after (r.2.1 ++ [.settled parent r.1])
  | .all parent slot =>
    let m := waits.merge parent slot signal
    match m.1 with
    | .waiting => ⟨[], none, m.2⟩
    | .complete =>
      match _h : m.2.get? parent with
      | none => ⟨[], none, m.2⟩
      | some wait =>
        let result := collect wait.kind
        (climb (m.2.erase parent) wait.task parent wait.link result).after
          [.settled parent result]
    | .failed result =>
      match _h : m.2.get? parent with
      | none => ⟨[], none, m.2⟩
      | some wait =>
        let r := detachEach (m.2.erase parent) wait.kind.members
        (climb r.2 wait.task parent wait.link result).after
          (r.1 ++ [.settled parent result])
termination_by waits.size
decreasing_by
  · exact Nat.lt_of_le_of_lt (size_closeRace_le ..) (Table.size_erase_lt _h)
  · exact Nat.lt_of_lt_of_eq (Table.size_erase_lt _h) (size_merge waits parent slot signal)
  · exact Nat.lt_of_le_of_lt (size_detachEach_le ..)
      (Nat.lt_of_lt_of_eq (Table.size_erase_lt _h) (size_merge waits parent slot signal))

/-- Settle a pending effect; a signal for an effect that is gone changes nothing. -/
def settle (waits : Waits) (id : EffectId) (signal : Signal) : Climb :=
  match waits.get? id with
  | none => ⟨[], none, waits⟩
  | some wait =>
    (climb (waits.erase id) wait.task id wait.link signal).after [.settled id signal]

end Waits

end SagaMachine

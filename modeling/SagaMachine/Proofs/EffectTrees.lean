import SagaMachine.Proofs.Moves

/-!
# What combinators mean

A tree of effects is under way: some leaves are pending, and the combinators above them wait. This
module says, by recursion on such trees and without a table of pending effects, what becomes of a
tree when one of its leaves settles (`EffectTree.settle`) and which tree an effect starts as
(`Effect.launch`).

A race is decided by its first member that has settled, whatever the outcome. An `all` is decided by
its first member that has settled without a value, or once all members have values. Where members are
started, those after a member that decides are not.
-/

namespace SagaMachine

/-- An effect that was started: it has settled, or it is a tree with pending leaves. -/
inductive EffectTree where
  | settled (signal : Signal)
  | leaf (id : EffectId)
  | race (id : EffectId) (keys : Option (List String)) (members : List EffectTree)
  | all (id : EffectId) (members : List EffectTree)

namespace EffectTree

/-- The signal of an effect that has settled. -/
def signal? : EffectTree → Option Signal
  | settled signal => some signal
  | _ => none

/-- The value of an effect that has settled with one. -/
def value? : EffectTree → Option Value
  | settled (.value v) => some v
  | _ => none

/-- The signal of an effect that has settled without a value. -/
def failure? : EffectTree → Option Signal
  | settled (.value _) => none
  | settled signal => some signal
  | _ => none

/-- The number of an effect that is pending. -/
def root? : EffectTree → Option EffectId
  | settled _ => none
  | leaf id | race id _ _ | all id _ => some id

mutual

/-- The effects of a tree that are pending. -/
def ids : EffectTree → List EffectId
  | settled _ => []
  | leaf id => [id]
  | race id _ members | all id members => id :: idsEach members

/-- The effects of some trees that are pending. -/
def idsEach : List EffectTree → List EffectId
  | [] => []
  | t :: ts => t.ids ++ idsEach ts

end

/-! ## What decides a combinator -/

/-- The first member that has settled: its place, and its signal. -/
def winner? : List EffectTree → Option (Nat × Signal)
  | [] => none
  | t :: ts =>
    match t.signal? with
    | some signal => some (0, signal)
    | none => (winner? ts).map fun r => (r.1 + 1, r.2)

/--
The result of a race that the member in `slot` has decided. A value stands under the key of the
winner, or at its place in a list with unit at all others.
-/
def crown (keys : Option (List String)) (width slot : Nat) : Signal → Signal
  | .value v =>
    match keys with
    | some keys => .value (.map [(keys.getD slot "", v)])
    | none => .value (.list ((List.range width).map fun k => if k = slot then v else .unit))
  | signal => signal

/-- A race of some width whose first members, or all of them, were started. -/
def ofRace (id : EffectId) (keys : Option (List String)) (width : Nat)
    (members : List EffectTree) : EffectTree :=
  match winner? members with
  | some r => settled (crown keys width r.1 r.2)
  | none => race id keys members

/-- An `all`: the first failure decides, or else the values of all members. -/
def ofAll (id : EffectId) (members : List EffectTree) : EffectTree :=
  match members.findSome? failure? with
  | some signal => settled signal
  | none =>
    if members.all fun t => t.value?.isSome then
      settled (.value (.list (members.filterMap value?)))
    else all id members

/-! ## Settlements -/

mutual

/-- A pending leaf settles. -/
def settle (x : EffectId) (signal : Signal) : EffectTree → EffectTree
  | settled r => settled r
  | leaf id => if id = x then settled signal else leaf id
  | race id keys members => ofRace id keys members.length (settleEach x signal members)
  | all id members => ofAll id (settleEach x signal members)

/-- A pending leaf of one of several trees settles. -/
def settleEach (x : EffectId) (signal : Signal) : List EffectTree → List EffectTree
  | [] => []
  | t :: ts => t.settle x signal :: settleEach x signal ts

end

/-- Leaves settle, one after the other. -/
def settleAll (log : List (EffectId × Signal)) (t : EffectTree) : EffectTree :=
  log.foldl (fun t p => t.settle p.1 p.2) t

section

variable {x id : EffectId} {signal : Signal} {keys : Option (List String)} {width : Nat}
  {t : EffectTree} {ts : List EffectTree}

theorem settleEach_eq_map (x : EffectId) (signal : Signal) (ts : List EffectTree) :
    settleEach x signal ts = ts.map (settle x signal) := by
  induction ts with
  | nil => rfl
  | cons t ts ih => rw [settleEach, ih, List.map_cons]

theorem mem_idsEach : x ∈ idsEach ts ↔ ∃ t ∈ ts, x ∈ t.ids := by
  induction ts with
  | nil => simp [idsEach]
  | cons t ts ih => simp [idsEach, ih]

theorem settleAll_append (log log' : List (EffectId × Signal)) (t : EffectTree) :
    t.settleAll (log ++ log') = (t.settleAll log).settleAll log' := List.foldl_append

/-- What has settled stays so. -/
theorem settleAll_settled (log : List (EffectId × Signal)) (signal : Signal) :
    (settled signal).settleAll log = settled signal := by
  induction log with
  | nil => rfl
  | cons p log ih => exact ih

theorem signal?_eq_some : t.signal? = some signal ↔ t = settled signal := by
  cases t <;> simp [signal?]

/-- What is pending has neither a value nor failed. -/
theorem of_pending (h : t.signal? = none) :
    t.value? = none ∧ t.failure? = none ∧ ∃ r, t.root? = some r ∧ r ∈ t.ids := by
  cases t with
  | settled => cases h
  | _ => exact ⟨rfl, rfl, _, rfl, by simp [ids]⟩

theorem signal?_of_value (h : t.value? = none) (hf : t.failure? = none) : t.signal? = none := by
  cases t with
  | settled signal => cases signal <;> cases h <;> cases hf
  | _ => rfl

/-! ### Races -/

theorem winner?_eq_none : winner? ts = none ↔ ∀ t ∈ ts, t.signal? = none := by
  induction ts with
  | nil => simp [winner?]
  | cons t ts ih =>
    rw [winner?]
    cases ht : t.signal? <;> simp [ht, ih]

/-- The first member that has settled wins, whoever comes after it. -/
theorem winner?_append (h : ∀ t ∈ ts, t.signal? = none) (signal : Signal) (rest : List EffectTree) :
    winner? (ts ++ settled signal :: rest) = some (ts.length, signal) := by
  induction ts with
  | nil => rfl
  | cons t ts ih =>
    rw [List.forall_mem_cons] at h
    simp [winner?, h.1, ih h.2]

theorem ofRace_pending (h : ∀ t ∈ ts, t.signal? = none) :
    ofRace id keys width ts = race id keys ts := by
  rw [ofRace, winner?_eq_none.2 h]

theorem ofRace_append (h : ∀ t ∈ ts, t.signal? = none) (signal : Signal) (rest : List EffectTree) :
    ofRace id keys width (ts ++ settled signal :: rest) =
      settled (crown keys width ts.length signal) := by
  rw [ofRace, winner?_append h]

/-- The machine makes up the result of a race in the same way. -/
theorem crown_eq (keys : Option (List String)) (width slot : Nat) (signal : Signal) :
    crown keys width slot signal = Waits.raceResult keys width slot signal := by
  cases signal with
  | value v =>
    cases keys with
    | some keys => rw [crown, Waits.raceResult, List.getD_eq_getElem?_getD]
    | none =>
      have hlist : ((List.range width).map fun k => if k = slot then v else Value.unit) =
          (List.replicate width Value.unit).set slot v := by
        refine List.ext_getElem (by simp) fun k hk _ => ?_
        simp only [List.getElem_map, List.getElem_range, List.getElem_set, List.getElem_replicate,
          eq_comm]
      rw [crown, Waits.raceResult, hlist]
  | fault | ended => rfl

/-! ### Members of an `all` -/

/-- The first member that has failed decides, whoever comes after it. -/
theorem ofAll_append (hf : ∀ t ∈ ts, t.failure? = none) (hs : (settled signal).failure? = some signal)
    (rest : List EffectTree) : ofAll id (ts ++ settled signal :: rest) = settled signal := by
  have hfind : (ts ++ settled signal :: rest).findSome? failure? = some signal := by
    rw [List.findSome?_append, List.findSome?_eq_none_iff.2 hf, Option.none_or,
      List.findSome?_cons_of_isSome (by rw [hs]; rfl), hs]
  rw [ofAll, hfind]

/-- With a member still pending, and none that has failed, an `all` waits. -/
theorem ofAll_pending (hf : ∀ t ∈ ts, t.failure? = none) (hp : ∃ t ∈ ts, t.value? = none) :
    ofAll id ts = all id ts := by
  obtain ⟨t, ht, hv⟩ := hp
  rw [ofAll, List.findSome?_eq_none_iff.2 hf]
  refine if_neg fun hall => ?_
  have := List.all_eq_true.1 hall t ht
  rw [hv] at this
  cases this

/-- Once all members have values an `all` has all of them, in the order of the members. -/
theorem ofAll_complete (hv : ∀ t ∈ ts, t.value? ≠ none) :
    ofAll id ts = settled (.value (.list ((ts.map value?).map fun r => r.getD .unit))) := by
  have hf : ∀ t ∈ ts, t.failure? = none := by
    intro t ht
    cases t with
    | settled signal =>
      cases signal with
      | value v => rfl
      | _ => exact absurd rfl (hv _ ht)
    | _ => rfl
  have hall : (ts.all fun t => t.value?.isSome) = true :=
    List.all_eq_true.2 fun t ht => Option.isSome_iff_ne_none.2 (hv t ht)
  have hvs : ts.filterMap value? = (ts.map value?).map fun r => r.getD .unit := by
    clear hall hf
    induction ts with
    | nil => rfl
    | cons t ts ih =>
      rw [List.forall_mem_cons] at hv
      obtain ⟨v, hv'⟩ := Option.ne_none_iff_exists'.1 hv.1
      simp [hv', ih hv.2]
  rw [ofAll, List.findSome?_eq_none_iff.2 hf, if_pos hall, hvs]

end

end EffectTree

/-! ## The start of an effect -/

/-- An effect that was triggered: its number, the combinator it is a member of, and the effect. -/
abbrev Issue := EffectId × Option EffectId × Effect

/-- What the start of an effect comes to, and which effects it triggers, the first one first. -/
structure Launch where
  tree : EffectTree
  /-- The number that the next effect gets. -/
  next : EffectId
  issued : List Issue

/-- What the start of the members of a combinator comes to. -/
structure Launches where
  trees : List EffectTree
  next : EffectId
  issued : List Issue

namespace Effect

section

variable (answers : EffectId → Option Signal)

/-- An effect without members has settled when it is started, or it is left pending. -/
def launchLeaf (parent : Option EffectId) (n : EffectId) (e : Effect) : Launch where
  tree := (answers n).elim (.leaf n) .settled
  next := n + 1
  issued := [(n, parent, e)]

mutual

/--
The start of an effect under the next number `n`. What becomes of an effect without members when it is
started is asked of `answers`.
-/
def launch (parent : Option EffectId) (n : EffectId) : Effect → Launch
  | race members =>
    if Effect.duplicateKey? members = none ∧ members ≠ [] then
      let r := launchKeyed n (n + 1) members
      ⟨.ofRace n (some (members.map Prod.fst)) members.length r.trees, r.next,
        (n, parent, race members) :: r.issued⟩
    else launchLeaf answers parent n (race members)
  | racePositional members =>
    if members ≠ [] then
      let r := launchEach (fun t => t.signal?.isSome) n (n + 1) members
      ⟨.ofRace n none members.length r.trees, r.next,
        (n, parent, racePositional members) :: r.issued⟩
    else launchLeaf answers parent n (racePositional members)
  | all members =>
    let r := launchEach (fun t => t.failure?.isSome) n (n + 1) members
    ⟨.ofAll n r.trees, r.next, (n, parent, all members) :: r.issued⟩
  | e => launchLeaf answers parent n e

/-- The members of combinator `id` are started from left to right, until one of them decides it. -/
def launchEach (decides : EffectTree → Bool) (id n : EffectId) : List Effect → Launches
  | [] => ⟨[], n, []⟩
  | e :: es =>
    let l := launch (some id) n e
    if decides l.tree then ⟨[l.tree], l.next, l.issued⟩
    else
      let r := launchEach decides id l.next es
      ⟨l.tree :: r.trees, r.next, l.issued ++ r.issued⟩

/-- The members of a keyed race are started in the same way. -/
def launchKeyed (id n : EffectId) : List (String × Effect) → Launches
  | [] => ⟨[], n, []⟩
  | (_, e) :: es =>
    let l := launch (some id) n e
    if l.tree.signal?.isSome then ⟨[l.tree], l.next, l.issued⟩
    else
      let r := launchKeyed id l.next es
      ⟨l.tree :: r.trees, r.next, l.issued ++ r.issued⟩

end

end

end Effect

/-- Whether a member that has come to this decides its combinator. -/
def WaitKind.decides : WaitKind → EffectTree → Bool
  | .race .. => fun t => t.signal?.isSome
  | _ => fun t => t.failure?.isSome

/-- The tree of a combinator whose first members, or all of them, were started. -/
def WaitKind.ofMembers (kind : WaitKind) (id : EffectId) (trees : List EffectTree) : EffectTree :=
  match kind with
  | .race keys members => .ofRace id keys members.length trees
  | _ => .ofAll id trees

namespace Effect

variable {answers : EffectId → Option Signal} {parent : Option EffectId} {id n : EffectId}
  {e e₀ : Effect} {es : List Effect} {kind : WaitKind}

theorem launchKeyed_eq (id n : EffectId) (members : List (String × Effect)) :
    launchKeyed answers id n members =
      launchEach answers (fun t => t.signal?.isSome) id n (members.map Prod.snd) := by
  induction members generalizing n with
  | nil => rw [launchKeyed, List.map_nil, launchEach]
  | cons m members ih =>
    obtain ⟨k, e⟩ := m
    simp only [launchKeyed, List.map_cons, launchEach, ih]

/-- The start of an effect without members. -/
theorem launch_leaf (he : e.fan? = none) (hne : e ≠ .all []) :
    e.launch answers parent n = launchLeaf answers parent n e := by
  cases e with
  | race members =>
    rw [launch]
    refine if_neg fun h => ?_
    obtain ⟨m, ms, rfl⟩ := List.exists_cons_of_ne_nil h.2
    simp [fan?, h.1] at he
  | racePositional members =>
    rw [launch]
    refine if_neg fun h => ?_
    obtain ⟨m, ms, rfl⟩ := List.exists_cons_of_ne_nil h
    simp [fan?] at he
  | all members =>
    cases members with
    | nil => exact absurd rfl hne
    | cons m ms => simp [fan?] at he
  | _ => rw [launch] <;> nofun

theorem launch_all_nil :
    (Effect.all []).launch answers parent n =
      ⟨.settled (.value (.list [])), n + 1, [(n, parent, .all [])]⟩ := by
  rw [launch, launchEach]
  exact congrArg (fun t => Launch.mk t (n + 1) [(n, parent, .all [])])
    (EffectTree.ofAll_complete (by simp))

/-- The start of a combinator is the start of its members. -/
theorem launch_fan (he : e.fan? = some (kind, e₀, es)) :
    e.launch answers parent n =
      let r := launchEach answers kind.decides n (n + 1) (e₀ :: es)
      ⟨kind.ofMembers n r.trees, r.next, (n, parent, e) :: r.issued⟩ := by
  cases e with
  | race members =>
    cases hd : duplicateKey? members with
    | some k => simp [fan?, hd] at he
    | none =>
      cases members with
      | nil => simp [fan?, hd] at he
      | cons m ms =>
        simp only [fan?, hd, List.map_cons, Option.some.injEq, Prod.mk.injEq] at he
        obtain ⟨rfl, rfl, rfl⟩ := he
        rw [launch, if_pos ⟨hd, by simp⟩, launchKeyed_eq]
        simp only [WaitKind.decides, WaitKind.ofMembers, List.map_cons, List.length_cons,
          List.length_map]
  | racePositional members =>
    cases members with
    | nil => cases he
    | cons m ms =>
      simp only [fan?, Option.some.injEq, Prod.mk.injEq] at he
      obtain ⟨rfl, rfl, rfl⟩ := he
      rw [launch, if_pos (by simp)]
      simp only [WaitKind.decides, WaitKind.ofMembers, List.length_map]
  | all members =>
    cases members with
    | nil => cases he
    | cons m ms =>
      simp only [fan?, Option.some.injEq, Prod.mk.injEq] at he
      obtain ⟨rfl, rfl, rfl⟩ := he
      rw [launch]
      rfl
  | _ => cases he

end Effect

end SagaMachine

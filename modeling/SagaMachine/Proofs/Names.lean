import SagaMachine.Proofs.ChannelSteps
import SagaMachine.Proofs.Moves

/-!
# Registered names

Takers, joiners, listeners, reactions, errands and instructions name pending effects that
are to be settled later. Only effects without members are ever named (`LeafName`): a
combinator settles through its members alone. This holds in every reachable configuration,
because a name is given out only when such an effect is started, and is only handed on
afterwards.

Main statement: `Config.Knows.step`.
-/

namespace SagaMachine

theorem LeafName.mono {past past' : List Event} {x : EffectId} (h : LeafName past x)
    (hp : past ⊆ past') : LeafName past' x := by
  obtain ⟨t, p, e, he, hl⟩ := h
  exact ⟨t, p, e, hp he, hl⟩

theorem LeafName.triggered {past : List Event} {t : TaskId} {x : EffectId}
    {p : Option EffectId} {e : Effect} (he : e.fan? = none) :
    LeafName (.triggered t x p e :: past) x :=
  ⟨t, p, e, List.mem_cons_self, he⟩

/-- An effect that was triggered as a put. -/
def PutName (past : List Event) (x : EffectId) : Prop :=
  ∃ t p target, .triggered t x p (.put target) ∈ past

/-- An effect that was triggered as a call. -/
def CallName (past : List Event) (x : EffectId) : Prop :=
  ∃ t p name r, .triggered t x p (.call name r) ∈ past

theorem PutName.leafName {past : List Event} {x : EffectId} (h : PutName past x) :
    LeafName past x := by
  obtain ⟨t, p, target, h⟩ := h
  exact ⟨t, p, _, h, rfl⟩

theorem PutName.mono {past past' : List Event} {x : EffectId} (h : PutName past x)
    (hp : past ⊆ past') : PutName past' x := by
  obtain ⟨t, p, target, h⟩ := h
  exact ⟨t, p, target, hp h⟩

theorem CallName.leafName {past : List Event} {x : EffectId} (h : CallName past x) :
    LeafName past x := by
  obtain ⟨t, p, name, r, h⟩ := h
  exact ⟨t, p, _, h, rfl⟩

theorem CallName.mono {past past' : List Event} {x : EffectId} (h : CallName past x)
    (hp : past ⊆ past') : CallName past' x := by
  obtain ⟨t, p, name, r, h⟩ := h
  exact ⟨t, p, name, r, hp h⟩

/-- A taker of the bus, with the pattern that its task gave. -/
def BusTaker.Knows (past : List Event) (b : BusTaker) : Prop :=
  ∃ q, .triggered b.owner b.effect q (.take .bus b.pattern) ∈ past

theorem BusTaker.Knows.leafName {past : List Event} {b : BusTaker} (h : b.Knows past) :
    LeafName past b.effect := by
  obtain ⟨q, h⟩ := h
  exact ⟨_, q, _, h, rfl⟩

theorem BusTaker.Knows.mono {past past' : List Event} {b : BusTaker} (h : b.Knows past)
    (hp : past ⊆ past') : b.Knows past' := by
  obtain ⟨q, h⟩ := h
  exact ⟨q, hp h⟩

/-- The effect that an errand answers. -/
def Errand.reply? : Errand → Option EffectId
  | .dispatch _ reply => reply
  | .put _ _ reply => some reply
  | .finish => none

/-- A reaction that, if it settles an effect, names one without members. -/
def Reaction.Knows (past : List Event) : Reaction → Prop
  | .settle x _ => LeafName past x
  | _ => True

/--
Everything that an engine names is an effect without members, and what its errands answer are
puts; and no number belongs to two tasks.
-/
structure Engine.Knows (past : List Event) (e : Engine) : Prop where
  distinct : e.tasks.keys.Nodup
  bus : ∀ t ∈ e.bus.takers, t.Knows past
  joiner : ∀ u n, e.tasks.get? u = some n → ∀ x ∈ n.joiners, LeafName past x
  stack : ∀ r ∈ e.agenda.stack, r.Knows past
  fresh : ∀ r ∈ e.agenda.fresh, r.Knows past
  errand : ∀ a ∈ e.agenda.errands, ∀ x, a.reply? = some x → PutName past x

/-- Everything that is named anywhere is an effect without members. -/
structure World.Knows (w : World) : Prop where
  engine : ∀ i, (w.engine i).Knows (w.past i)
  channel : ∀ c channel, w.channels.get? c = some channel →
    ∀ t ∈ channel.takers, ∀ r, t.sink = .effect r → LeafName (w.past r.mw) r.effect
  listener : ∀ d deferred, w.deferreds.get? d = some deferred →
    ∀ r, deferred.listener = some r → LeafName (w.past r.mw) r.effect

/-- An instruction that waits until it is its turn. -/
def Instr.Later : Instr → Prop
  | .perform .. | .poll .. | .trigger .. | .begun .. | .leave .. => False
  | .op .outside _ _ => False
  | _ => True

/-- What an instruction names is an effect without members; and it comes from inside. -/
def Instr.Knows (past : MiddlewareId → List Event) : Instr → Prop
  | .perform i (.reaction r) => r.Knows (past i)
  | .perform i (.errand a) => ∀ x, a.reply? = some x → PutName (past i) x
  | .schedule i r => ∃ x signal, r = .settle x signal ∧ LeafName (past i) x
  | .emit i _ (.effect x) | .forwarded i _ (.effect x) => PutName (past i) x
  | .deliver (.effect r) _ => LeafName (past r.mw) r.effect
  | .answer turn _ _ x _ _ => CallName (past turn.mw) x
  | .op .outside _ _ => False
  | _ => True

/--
Everything that is named in a configuration is an effect without members. An operation from
outside is alone, and only the first instruction is one that does not wait.
-/
structure Config.Knows (c : Config) : Prop where
  world : c.world.Knows
  todo : (∃ o, c.todo = [.op .outside .empty o]) ∨ ∀ x ∈ c.todo, x.Knows c.world.past
  later : ∀ x ∈ c.todo.tail, x.Later

theorem Reaction.Knows.mono {past past' : List Event} {r : Reaction} (h : r.Knows past)
    (hp : past ⊆ past') : r.Knows past' := by
  cases r with
  | settle x signal => exact LeafName.mono h hp
  | _ => trivial

theorem Engine.Knows.mono {past past' : List Event} {e : Engine} (h : e.Knows past)
    (hp : past ⊆ past') : e.Knows past' where
  distinct := h.distinct
  bus t ht := (h.bus t ht).mono hp
  joiner u n hn x hx := (h.joiner u n hn x hx).mono hp
  stack r hr := (h.stack r hr).mono hp
  fresh r hr := (h.fresh r hr).mono hp
  errand a ha x hx := (h.errand a ha x hx).mono hp

theorem Instr.Knows.mono {past past' : MiddlewareId → List Event} {x : Instr}
    (h : x.Knows past) (hp : ∀ i, past i ⊆ past' i) : x.Knows past' := by
  unfold Instr.Knows at h ⊢
  split <;> simp only at h
  · exact h.mono (hp _)
  · exact fun x hx => (h x hx).mono (hp _)
  · obtain ⟨x, signal, hr, hl⟩ := h
    exact ⟨x, signal, hr, hl.mono (hp _)⟩
  · exact h.mono (hp _)
  · exact h.mono (hp _)
  · exact h.mono (hp _)
  · exact h.mono (hp _)
  · trivial

theorem Engine.Knows.init (past : List Event) {e : Engine} (hb : e.bus.takers = [])
    (ht : e.tasks = .empty) (ha : e.agenda = {}) : e.Knows past where
  distinct := by rw [ht]; exact List.nodup_nil
  bus t h := by rw [hb] at h; cases h
  joiner u n h := by rw [ht] at h; cases h
  stack r h := by rw [ha] at h; cases h
  fresh r h := by rw [ha] at h; cases h
  errand a h := by rw [ha] at h; cases h

namespace World

/-- A world that went on from another one, and names only effects without members. -/
structure Learns (w w' : World) : Prop where
  past : ∀ i, w.past i ⊆ w'.past i
  has : ∀ i, w'.Has i ↔ w.Has i
  knows : w'.Knows

namespace Learns

variable {w w' w'' : World} {i : MiddlewareId}

theorem start (h : w.Knows) : Learns w w := ⟨fun _ => List.Subset.refl _, fun _ => Iff.rfl, h⟩

theorem enter (h : Learns w w') (e : Entry) : Learns w (w'.enter e) := by
  have hp : ∀ i, w'.past i ⊆ (w'.enter e).past i := by
    intro i x hx
    simp only [World.past, World.enter, List.filterMap_cons]
    split
    · exact hx
    · exact List.mem_cons_of_mem _ hx
  refine ⟨fun i => List.Subset.trans (h.past i) (hp i), h.has, ?_, ?_, ?_⟩
  · exact fun i => (h.knows.engine i).mono (hp i)
  · exact fun c channel hc t ht r hr => (h.knows.channel c channel hc t ht r hr).mono (hp _)
  · exact fun d deferred hd r hr => (h.knows.listener d deferred hd r hr).mono (hp _)

theorem record (h : Learns w w') (e : Event) : Learns w (w'.record i e) := h.enter _

theorem enterNotes (h : Learns w w') (notes : List Note) : Learns w (w'.enterNotes notes) := by
  unfold World.enterNotes
  induction notes generalizing w' with
  | nil => exact h
  | cons n notes ih => exact ih (h.enter _)

/-- A change of what is neither named nor the journal. -/
theorem of_eq (h : Learns w w') (hm : w''.middlewares = w'.middlewares)
    (hj : w''.journal = w'.journal) (hc : w''.channels = w'.channels)
    (hd : w''.deferreds = w'.deferreds) : Learns w w'' := by
  have hp : w''.past = w'.past := by
    funext i
    simp only [World.past, hj]
  have he : w''.engine = w'.engine := by
    funext i
    simp only [World.engine, hm]
  have hh : ∀ i, w''.Has i ↔ w.Has i := by
    intro i
    rw [← h.has i, World.Has, hm, World.Has]
  refine ⟨hp ▸ h.past, hh, ?_, ?_, ?_⟩
  · rw [he, hp]
    exact h.knows.engine
  · rw [hc, hp]
    exact h.knows.channel
  · rw [hd, hp]
    exact h.knows.listener

theorem setEngine (h : Learns w w') {f : Engine → Engine}
    (hf : (w'.engine i).Knows (w'.past i) → (f (w'.engine i)).Knows (w'.past i)) :
    Learns w (w'.setEngine i f) := by
  have hh : ∀ j, (w'.setEngine i f).Has j ↔ w.Has j := by
    intro j
    rw [← h.has j, has_iff, has_iff, alive_setEngine]
  refine ⟨h.past, hh, ?_, h.knows.channel, h.knows.listener⟩
  intro j
  by_cases hj : j = i
  · subst hj
    cases hm : w'.middlewares.get? j with
    | none =>
      have : (w'.setEngine j f).engine j = {} := by simp [World.engine, World.setEngine, hm]
      rw [this]
      exact .init _ rfl rfl rfl
    | some m =>
      rw [engine_setEngine ⟨m, hm⟩]
      exact hf (h.knows.engine j)
  · rw [(untouched_setEngine hj f).engine]
    exact h.knows.engine j

theorem schedule (h : Learns w w') {r : Reaction} (hr : r.Knows (w'.past i)) :
    Learns w (w'.schedule i r) := by
  refine h.setEngine fun he => { he with fresh := ?_ }
  intro r' hr'
  rcases List.mem_append.1 hr' with hr' | hr'
  · exact he.fresh r' hr'
  · rw [List.mem_singleton.1 hr']
    exact hr

theorem foldl_schedule {α : Type} (h : Learns w w') (f : α → Reaction) (as : List α)
    (hr : ∀ a ∈ as, (f a).Knows (w'.past i)) :
    Learns w (as.foldl (fun w a => w.schedule i (f a)) w') := by
  induction as generalizing w' with
  | nil => exact h
  | cons a as ih =>
    refine ih (h.schedule (hr a List.mem_cons_self)) ?_
    exact fun b hb => hr b (List.mem_cons_of_mem _ hb)

theorem queue (h : Learns w w') {a : Errand}
    (ha : ∀ x, a.reply? = some x → PutName (w'.past i) x) : Learns w (w'.queue i a) := by
  refine Learns.record (h.setEngine fun he => { he with errand := ?_ }) _
  intro b hb
  rcases List.mem_append.1 hb with hb | hb
  · exact he.errand b hb
  · rw [List.mem_singleton.1 hb]
    exact ha

theorem setTask (h : Learns w w') {t : TaskId} {f : TaskNode → TaskNode}
    (hf : ∀ n, ∀ x ∈ (f n).joiners, x ∈ n.joiners ∨ LeafName (w'.past i) x) :
    Learns w (w'.setTask i t f) := by
  refine h.setEngine fun he => { he with distinct := ?_, joiner := ?_ }
  · rw [Table.keys_modify]
    exact he.distinct
  intro u n hn x hx
  simp only [Table.get?_modify] at hn
  split at hn
  · obtain ⟨m, hm, rfl⟩ := Option.map_eq_some_iff.1 hn
    rcases hf m x hx with hx | hx
    · exact he.joiner _ m hm x hx
    · exact hx
  · exact he.joiner u n hn x hx

/-- A change of a task that leaves its joiners alone. -/
theorem setTask' (h : Learns w w') {t : TaskId} {f : TaskNode → TaskNode}
    (hf : ∀ n, (f n).joiners = n.joiners) : Learns w (w'.setTask i t f) :=
  h.setTask fun n _ hx => Or.inl (hf n ▸ hx)

/-- A channel keeps some of its takers, or gets one that goes to an effect without members. -/
theorem setChannel (h : Learns w w') {c : ChannelId} {channel : Channel Sink}
    (hc : ∀ t ∈ channel.takers, ∀ r, t.sink = .effect r → LeafName (w'.past r.mw) r.effect) :
    Learns w { w' with channels := w'.channels.insert c channel } := by
  refine ⟨h.past, h.has, h.knows.engine, ?_, h.knows.listener⟩
  intro c' channel' h'
  simp only [Table.get?_insert] at h'
  split at h'
  · cases h'
    exact hc
  · exact h.knows.channel c' channel' h'

theorem setDeferred (h : Learns w w') {d : DeferredId} {deferred : Deferred EffectRef}
    (hd : ∀ r, deferred.listener = some r → LeafName (w'.past r.mw) r.effect) :
    Learns w { w' with deferreds := w'.deferreds.insert d deferred } := by
  refine ⟨h.past, h.has, h.knows.engine, h.knows.channel, ?_⟩
  intro d' deferred' h'
  simp only [Table.get?_insert] at h'
  split at h'
  · cases h'
    exact hd
  · exact h.knows.listener d' deferred' h'

/-! ### Pending effects -/

theorem stopTimer (h : Learns w w') (id : Option TimerId) : Learns w (w'.stopTimer id) := by
  cases id with
  | none => exact h
  | some id => exact h.of_eq rfl rfl rfl rfl

theorem unsubscribe (h : Learns w w') (d : DeferredId) : Learns w (w'.unsubscribe d) := by
  unfold World.unsubscribe
  split
  · exact h
  · rename_i deferred hd
    have h1 : Learns w
        { w' with deferreds := w'.deferreds.modify d fun _ => deferred.unsubscribe.2 } := by
      refine ⟨h.past, h.has, h.knows.engine, h.knows.channel, ?_⟩
      intro d' deferred' h' r hr
      simp only [Table.get?_modify] at h'
      split at h'
      · rw [hd] at h'
        cases h'
        cases hr
      · exact h.knows.listener d' deferred' h' r hr
    exact h1.stopTimer _

theorem deregister (h : Learns w w') (x : EffectId) (kind : WaitKind) :
    Learns w (w'.deregister i x kind) := by
  cases kind with
  | take source taker =>
    cases source with
    | bus =>
      refine h.setEngine (f := fun e => { e with bus := e.bus.cancelTaker taker }) fun he =>
        { he with bus := ?_ }
      exact fun t ht => he.bus t (List.mem_filter.1 ht).1
    | channel c =>
      refine ⟨h.past, h.has, h.knows.engine, ?_, h.knows.listener⟩
      intro c' channel' h' t ht
      simp only [World.deregister, Table.get?_modify] at h'
      split at h'
      · obtain ⟨channel, hc, rfl⟩ := Option.map_eq_some_iff.1 h'
        exact h.knows.channel _ channel hc t (List.mem_filter.1 ht).1
      · exact h.knows.channel c' channel' h' t ht
  | call d => exact h.unsubscribe d
  | join target => exact h.setTask fun n y hy => Or.inl (List.mem_filter.1 hy).1
  | _ => exact h

theorem passAll (h : Learns w w') (ps : List Passage) : Learns w (w'.passAll i ps) := by
  induction ps generalizing w' with
  | nil => exact h
  | cons p ps ih =>
    refine ih ?_
    cases p with
    | withdrawn x wait => exact (h.deregister x wait.kind).record _
    | settled x signal => exact h.record _

theorem setWaits (h : Learns w w') (waits : Waits) : Learns w (w'.setWaits i waits) :=
  h.setEngine fun he => { he with }

theorem walk (h : Learns w w') (waits : Waits) (ps : List Passage) :
    Learns w ((w'.setWaits i waits).passAll i ps) := (h.setWaits waits).passAll ps

theorem insertWait (h : Learns w w') (x : EffectId) (wait : Wait) :
    Learns w (w'.insertWait i x wait) := h.setEngine fun he => { he with }

theorem cancelPending (h : Learns w w') (pending : Option EffectId) :
    Learns w (w'.cancelPending i pending) := by
  cases pending with
  | none => exact h
  | some x => exact h.walk _ _

/-! ### Tasks -/

theorem park (h : Learns w w') (t : TaskId) (body : Body) (pending : Option EffectId) :
    Learns w (w'.park i t body pending) := h.setTask' fun _ => rfl

theorem createTask (h : Learns w w') (saga : Saga) (parent : Option TaskId)
    (detached : Bool) : Learns w (w'.createTask i saga parent detached) := by
  have h1 : Learns w (w'.setEngine i fun e =>
      { e with
        nextTask := (w'.engine i).nextTask + 1
        tasks := e.tasks.insert (w'.engine i).nextTask
          { name := saga.name, parent, detached,
            body := some (saga.program.start (w'.engine i).nextTask) } }) := by
    refine h.setEngine fun he => { he with distinct := ?_, joiner := ?_ }
    · exact Table.nodup_keys_insert he.distinct _ _
    intro u n hn x hx
    simp only [Table.get?_insert] at hn
    split at hn
    · cases hn
      cases hx
    · exact he.joiner u n hn x hx
  unfold World.createTask
  cases parent with
  | none => exact h1.record _
  | some p =>
    cases detached with
    | true => exact h1.record _
    | false =>
      refine Learns.record (Learns.setTask' h1 ?_) _
      exact fun _ => rfl

theorem wakeWatches (h : Learns w w') (t : TaskRef) : Learns w (w'.wakeWatches t) :=
  h.of_eq rfl rfl rfl rfl

theorem announce (h : Learns w w') {t : TaskId} {n : TaskNode} (hn : w'.task? i t = some n)
    (outcome : Outcome) : Learns w (w'.announce i t n outcome) := by
  have h1 : Learns w (w'.setEngine i fun e =>
      { e with tasks := e.tasks.erase t, outcomes := e.outcomes.insert t outcome }) := by
    refine h.setEngine fun he => { he with distinct := ?_, joiner := ?_ }
    · exact Table.nodup_keys_erase he.distinct _
    intro u m hm x hx
    simp only [Table.get?_erase] at hm
    split at hm
    · cases hm
    · exact he.joiner u m hm x hx
  have h2 := h1.wakeWatches { owner := i, id := t, name := n.name }
  refine (h2.foldl_schedule (fun x => .settle x (.ofOutcome outcome)) n.joiners ?_).record _
  exact fun x hx => (h.knows.engine i).joiner t n hn x hx

theorem finalize (h : Learns w w') (t : TaskId) (outcome : Outcome) :
    Learns w (w'.finalize i t outcome).2 := by
  cases hn : w'.task? i t with
  | none =>
    rw [finalize_of_absent hn]
    exact h
  | some n =>
    have h1 := h.announce hn outcome
    rw [finalize_eq hn]
    simp only
    split
    · split
      · exact h1
      · split
        · exact h1
        · split
          · exact h1.setTask' fun _ => rfl
          · split <;> exact h1.setTask' fun _ => rfl
    · split
      · exact h1.record _
      · exact h1

/-! ### The bus, the host, channels and deferreds -/

theorem endBus (h : Learns w w') : Learns w (w'.endBus i) := by
  have h1 : Learns w (w'.setEngine i fun e =>
      { e with bus := ((w'.engine i).bus.finish (w'.engine i).nextTask).2 }) :=
    h.setEngine fun he => { he with bus := fun t ht => by cases ht }
  refine (h1.record (.busEnded (w'.engine i).nextTask)).foldl_schedule
    (fun t : BusTaker => .settle t.effect .ended) (w'.engine i).bus.takers ?_
  intro t ht
  exact ((h.knows.engine i).bus t ht).leafName.mono fun x hx => by
    simp only [past_record]
    exact List.mem_cons_of_mem _ hx

end Learns

end World

/-- A broadcast wakes and keeps takers that were there. -/
theorem Bus.mem_select {v : Value} {served : List TaskId} {ts : List BusTaker} {t : BusTaker}
    (h : t ∈ (select v served ts).woken ∨ t ∈ (select v served ts).kept) : t ∈ ts := by
  fun_induction select v served ts with
  | case1 => simp at h
  | case2 served u us hs r ih =>
    rcases h with h | h
    · exact List.mem_cons_of_mem _ (ih (Or.inl h))
    · rcases List.mem_cons.1 h with rfl | h
      · exact List.mem_cons_self
      · exact List.mem_cons_of_mem _ (ih (Or.inr h))
  | case3 served u us hs hv r ih =>
    rcases h with h | h
    · rcases List.mem_cons.1 h with rfl | h
      · exact List.mem_cons_self
      · exact List.mem_cons_of_mem _ (ih (Or.inl h))
    · exact List.mem_cons_of_mem _ (ih (Or.inr h))
  | case4 served u us hs hv r ih =>
    rcases h with h | h
    · exact List.mem_cons_of_mem _ (ih (Or.inl h))
    · rcases List.mem_cons.1 h with rfl | h
      · exact List.mem_cons_self
      · exact List.mem_cons_of_mem _ (ih (Or.inr h))

/-- A put takes out a taker that was there, and keeps the others. -/
theorem Channel.removeTaker_eq_some {κ : Type} {v : Value} {ts : List (Taker κ)} {t : Taker κ}
    {rest : List (Taker κ)} (h : removeTaker v ts = some (t, rest)) :
    t ∈ ts ∧ ∀ u ∈ rest, u ∈ ts := by
  obtain ⟨pre, post, rfl, rfl, -⟩ := removeTaker_split h
  refine ⟨List.mem_append_right _ List.mem_cons_self, fun u hu => ?_⟩
  exact ((List.sublist_cons_self t post).append_left pre).subset hu

/-- A put leaves takers that were there. -/
theorem Channel.mem_takers_put {κ : Type} {c : Channel κ} {v : Value} :
    (∀ t ∈ (c.put v).2.takers, t ∈ c.takers) ∧ ∀ t, (c.put v).1 = .delivered t → t ∈ c.takers := by
  unfold put
  split
  · exact ⟨fun t ht => ht, fun t h => by cases h⟩
  · split
    · rename_i t rest hr
      obtain ⟨h1, h2⟩ := removeTaker_eq_some hr
      refine ⟨h2, ?_⟩
      rintro _ ⟨⟩
      exact h1
    · split
      · exact ⟨fun t ht => ht, fun t h => by cases h⟩
      · exact ⟨fun t ht => ht, fun t h => by cases h⟩

/-- A take adds at most the new taker. -/
theorem Channel.mem_takers_take {κ : Type} {c : Channel κ} {p : Pattern} {sink : κ} {t : Taker κ}
    (h : t ∈ (c.take p sink).channel.takers) : t ∈ c.takers ∨ t.sink = sink := by
  unfold take at h
  simp only at h
  split at h
  · exact Or.inl h
  · split at h
    · exact Or.inl h
    · rcases List.mem_append.1 h with h | h
      · exact Or.inl h
      · rw [List.mem_singleton.1 h]
        exact Or.inr rfl

namespace World.Learns

variable {w w' w'' : World} {i : MiddlewareId}

theorem broadcast (h : Learns w w') (a : Action) : Learns w (w'.broadcast i a) := by
  have h1 : Learns w (w'.setEngine i fun e =>
      { e with bus := { e.bus with takers := ((w'.engine i).bus.broadcast a).kept } }) :=
    h.setEngine fun he => { he with bus := fun t ht => he.bus t (Bus.mem_select (Or.inr ht)) }
  have h2 := h1.enterNotes ((w'.engine i).bus.broadcast a).notes
  refine h2.foldl_schedule (fun t : BusTaker => .settle t.effect (.value (.action a)))
    ((w'.engine i).bus.broadcast a).woken ?_
  intro t ht
  refine ((h.knows.engine i).bus t (Bus.mem_select (Or.inl ht))).leafName.mono ?_
  rw [(untouched_enterNotes _).past]
  exact List.Subset.refl _

theorem reduceHost (h : Learns w w') (a : Action) : Learns w (w'.reduceHost i a) := by
  have he : ∀ j, (w'.reduceHost i a).engine j = w'.engine j := fun j =>
    (untouched_reduceHost (i := j) a).engine
  have hh : ∀ j, (w'.reduceHost i a).Has j ↔ w.Has j := fun j =>
    (untouched_reduceHost a).has.trans (h.has j)
  refine ⟨h.past, hh, ?_, h.knows.channel, h.knows.listener⟩
  intro j
  rw [he]
  exact h.knows.engine j

theorem readState (h : Learns w w') : Learns w (w'.readState i).2 := by
  unfold World.readState
  split
  · exact h
  · simp only
    split
    · exact h
    · exact h.record _

theorem putChannel (h : Learns w w') {c : ChannelId} {channel : Channel Sink}
    (hc : w'.channels.get? c = some channel) (v : Value) :
    Learns w (w'.putChannel c channel v).2 ∧
      ∀ t, (w'.putChannel c channel v).1 = .delivered t → ∀ r, t.sink = .effect r →
        LeafName ((w'.putChannel c channel v).2.past r.mw) r.effect := by
  have h1 := h.enterNotes (channel.putNotes v)
  have hkept : ∀ t ∈ (channel.put v).2.takers, ∀ r, t.sink = .effect r →
      LeafName ((w'.enterNotes (channel.putNotes v)).past r.mw) r.effect := by
    intro t ht r hr
    rw [(untouched_enterNotes _).past]
    exact h.knows.channel c channel hc t (Channel.mem_takers_put.1 t ht) r hr
  have h2 := h1.setChannel (c := c) hkept
  have hput : (w'.putChannel c channel v).1 = (channel.put v).1 := by
    unfold World.putChannel
    simp only
    split <;> rfl
  refine ⟨?_, ?_⟩
  · unfold World.putChannel
    simp only
    split
    · exact h2
    · exact h2
    · exact h2.enter _
    · exact h2.enter _
  · intro t ht r hr
    rw [hput] at ht
    rw [(untouched_putChannel c channel v).past]
    exact h.knows.channel c channel hc t (Channel.mem_takers_put.2 t ht) r hr

theorem takeChannel (h : Learns w w') {c : ChannelId} {channel : Channel Sink}
    (hc : w'.channels.get? c = some channel) (p : Pattern) (sink : Sink)
    (hs : ∀ r, sink = .effect r → LeafName (w'.past r.mw) r.effect) :
    Learns w (w'.takeChannel c channel p sink).2 := by
  refine (h.enterNotes (channel.takeNotes p)).setChannel ?_
  intro t ht r hr
  rw [(untouched_enterNotes _).past]
  rcases Channel.mem_takers_take ht with ht | ht
  · exact h.knows.channel c channel hc t ht r hr
  · exact hs r (ht ▸ hr)

theorem addDeferred (h : Learns w w') {d : Deferred EffectRef} (hd : d.listener = none) :
    Learns w (w'.addDeferred d).2 := by
  have hnone : ∀ r, d.listener = some r → LeafName (w'.past r.mw) r.effect := by
    intro r hr
    rw [hd] at hr
    cases hr
  have h1 := h.setDeferred (d := w'.nextDeferred) hnone
  exact h1.of_eq rfl rfl rfl rfl

theorem addTimer (h : Learns w w') (ms : Nat) (a : Answer) : Learns w (w'.addTimer ms a).2 := by
  unfold World.addTimer
  split
  · exact h.addDeferred rfl
  · exact (h.enter _).addDeferred rfl
  · exact (h.addDeferred (d := { timer := some w'.nextTimer }) rfl).of_eq rfl rfl rfl rfl

end World.Learns

/-! ## Instructions -/

/-- What an instruction calls for names only effects without members. -/
structure World.Teaches (w : World) (c : Config) : Prop where
  learns : w.Learns c.world
  todo : ∀ x ∈ c.todo, x.Knows c.world.past
  later : ∀ x ∈ c.todo.tail, x.Later

/-- An instruction that names nothing, and waits until it is its turn. -/
def Instr.Nameless (x : Instr) : Prop := (∀ past, x.Knows past) ∧ x.Later

namespace World.Teaches

variable {w : World} {i : MiddlewareId}

theorem of_nameless {c : Config} (h : w.Learns c.world) (ht : ∀ x ∈ c.todo, x.Nameless) :
    w.Teaches c :=
  ⟨h, fun x hx => (ht x hx).1 _, fun x hx => (ht x (List.mem_of_mem_tail hx)).2⟩

theorem nil {w' : World} (h : w.Learns w') : w.Teaches ⟨[], w'⟩ :=
  of_nameless h fun x hx => by cases hx

theorem one {w' : World} (h : w.Learns w') {x : Instr} (hx : x.Knows w'.past) :
    w.Teaches ⟨[x], w'⟩ := by
  refine ⟨h, fun y hy => ?_, fun y hy => by cases hy⟩
  rw [List.mem_singleton.1 hy]
  exact hx

theorem two {w' : World} (h : w.Learns w') {x y : Instr} (hx : x.Knows w'.past)
    (hy : y.Knows w'.past) (hl : y.Later) : w.Teaches ⟨[x, y], w'⟩ := by
  refine ⟨h, fun z hz => ?_, fun z hz => ?_⟩
  · rcases List.mem_cons.1 hz with rfl | hz
    · exact hx
    · rw [List.mem_singleton.1 hz]
      exact hy
  · rw [List.mem_singleton.1 hz]
    exact hl

theorem followedBy {c : Config} (h : w.Teaches c) {after : List Instr}
    (ha : ∀ x ∈ after, x.Nameless) : w.Teaches (c.followedBy after) := by
  refine ⟨h.learns, fun x hx => ?_, fun x hx => ?_⟩
  · rcases List.mem_append.1 hx with hx | hx
    · exact h.todo x hx
    · exact (ha x hx).1 _
  · rw [Config.followedBy] at hx
    cases hc : c.todo with
    | nil =>
      simp only [hc, List.nil_append] at hx
      exact (ha x (List.mem_of_mem_tail hx)).2
    | cons y ys =>
      simp only [hc, List.cons_append, List.tail_cons] at hx
      rcases List.mem_append.1 hx with hx | hx
      · exact h.later x (by rw [hc]; exact hx)
      · exact (ha x hx).2

theorem enterDriver {w' : World} (h : w.Learns w') {work : List Instr}
    (hw : ∀ x ∈ work, x.Nameless) : w.Teaches (w'.enterDriver i work) := by
  unfold World.enterDriver
  split
  · exact of_nameless h hw
  · refine of_nameless
      (h.setEngine (f := fun e => { e with driving := true }) fun he => { he with }) ?_
    intro x hx
    rcases List.mem_append.1 hx with hx | hx
    · exact hw x hx
    · rw [List.mem_singleton.1 hx]
      exact ⟨fun _ => trivial, trivial⟩

theorem notify {w' : World} (h : w.Learns w') {target : EffectRef}
    (ht : LeafName (w'.past target.mw) target.effect) (signal : Signal) :
    w.Teaches (w'.notify target signal) := by
  unfold World.notify
  split
  · exact nil h
  · exact enterDriver (h.schedule (r := .settle target.effect signal) ht) fun x hx => by cases hx

/-! ### The driver -/

theorem beginTurn {w' : World} (h : w.Learns w') (t : TaskId) (expected : Option EffectId)
    (signal : Option Signal) : w.Teaches (w'.beginTurn i t expected signal) := by
  unfold World.beginTurn
  split
  · exact nil h
  · split
    · exact nil h
    · split
      · exact nil h
      · have h1 := (h.setTask' (i := i) (t := t)
          (f := fun n => { n with body := none, status := .running }) fun _ => rfl).setEngine
          (i := i) (f := fun e => { e with current := some t }) fun he => { he with }
        simp only
        split <;> exact one h1 trivial

theorem putForEffect {w' : World} (h : w.Learns w') (c : ChannelId) (v : Value)
    {reply : EffectId} (hr : LeafName (w'.past i) reply) :
    w.Teaches (w'.putForEffect i c v reply) := by
  unfold World.putForEffect
  split
  · exact nil (h.schedule hr)
  · rename_i channel hc
    obtain ⟨h1, h2⟩ := h.putChannel hc v
    have hr' : LeafName ((w'.putChannel c channel v).2.past i) reply := by
      rw [(untouched_putChannel c channel v).past]
      exact hr
    simp only
    split
    · exact nil (h1.schedule hr')
    · rename_i t ht
      refine two h1 ?_ ⟨reply, _, rfl, hr'⟩ trivial
      cases hs : t.sink with
      | effect r => exact h2 t ht r hs
      | script => trivial
    · exact nil (h1.schedule hr')

theorem execPerform (h : w.Knows) {job : Job} (hj : (Instr.perform i job).Knows w.past) :
    w.Teaches (w.execPerform i job) := by
  have hs := Learns.start h
  cases job with
  | reaction r =>
    cases r with
    | start t => exact beginTurn hs t none none
    | resume t signal => exact beginTurn hs t none (some signal)
    | settle x signal =>
      have h1 : w.Learns (w.settleWait i x signal).2 := hs.walk _ _
      simp only [World.execPerform]
      split
      · exact nil h1
      · exact beginTurn h1 _ _ _
  | errand a =>
    have h1 : w.Learns (w.record i (.fetched a)) := hs.record _
    have hp : ∀ x, PutName (w.past i) x → PutName ((w.record i (.fetched a)).past i) x :=
      fun x hx => hx.mono (h1.past i)
    cases a with
    | dispatch a reply =>
      refine one h1 ?_
      cases reply with
      | none => trivial
      | some x => exact hp x (hj x rfl)
    | put c v reply => exact putForEffect h1 c v (hp reply (hj reply rfl)).leafName
    | finish => exact nil h1.endBus

theorem execDrain (h : w.Knows) : w.Teaches (w.execDrain i) := by
  have hi := h.engine i
  unfold World.execDrain
  split
  · refine nil ((Learns.start h).setEngine fun he => { he with stack := ?_, fresh := ?_ })
    · intro r hr
      rcases List.mem_append.1 hr with hr | hr
      · exact he.fresh r hr
      · exact he.stack r hr
    · exact fun r hr => by cases hr
  · rename_i job agenda hnext
    unfold Agenda.next? at hnext
    simp only [Agenda.flush] at hnext
    have hflush : ∀ r ∈ (w.engine i).agenda.fresh ++ (w.engine i).agenda.stack,
        r.Knows (w.past i) := by
      intro r hr
      rcases List.mem_append.1 hr with hr | hr
      · exact hi.fresh r hr
      · exact hi.stack r hr
    split at hnext
    · rename_i r rest hstack
      rw [hstack] at hflush
      cases hnext
      refine two ((Learns.start h).setEngine fun he => { he with stack := ?_, fresh := ?_ })
        (hflush r List.mem_cons_self) trivial trivial
      · exact fun r' hr' => hflush r' (List.mem_cons_of_mem _ hr')
      · exact fun r hr => by cases hr
    · rename_i hstack
      split at hnext
      · rename_i a rest herr
        have herrand := hi.errand
        rw [herr] at herrand
        cases hnext
        refine two ((Learns.start h).setEngine fun he =>
          { he with stack := ?_, fresh := ?_, errand := ?_ })
          (herrand a List.mem_cons_self) trivial trivial
        · exact fun r hr => hflush r hr
        · exact fun r hr => by cases hr
        · exact fun b hb => herrand b (List.mem_cons_of_mem _ hb)
      · cases hnext

theorem execEmit (h : w.Knows) {a : Action} {sender : Sender}
    (hs : (Instr.emit i a sender).Knows w.past) : w.Teaches (w.execEmit i a sender) := by
  unfold World.execEmit
  split
  · exact nil (.start h)
  · rename_i m hm
    have h1 : w.Learns (w.record i (.dispatched a)) := (Learns.start h).record _
    have hs' : (Instr.forwarded i a sender).Knows w.past := by cases sender <;> exact hs
    simp only
    split
    · exact one h1 (hs'.mono h1.past)
    · have h2 := h1.enter (.host i (w.record i (.dispatched a)).now a)
      exact two h2 trivial (hs'.mono h2.past) trivial

theorem finishEmit {w' : World} (h : w.Learns w') {a : Action} {sender : Sender}
    (hs : (Instr.forwarded i a sender).Knows w'.past) (result : Except Fault Unit) :
    w.Teaches (w'.finishEmit i a sender result) := by
  cases sender with
  | effect x => exact nil (h.schedule (PutName.leafName hs))
  | caller site => exact two h trivial trivial trivial
  | nobody =>
    cases result with
    | ok u => exact nil h
    | error f => exact nil (h.record _)

theorem execForwarded (h : w.Knows) {a : Action} {sender : Sender}
    (hs : (Instr.forwarded i a sender).Knows w.past) :
    w.Teaches (w.execForwarded i a sender) := by
  unfold World.execForwarded
  split
  · exact nil (.start h)
  · split
    · exact finishEmit (.start h) hs _
    · have h1 : w.Learns ((w.reduceHost i a).broadcast i a) :=
        ((Learns.start h).reduceHost a).broadcast a
      exact finishEmit h1 (hs.mono h1.past) _

theorem execDeliver (h : w.Knows) {sink : Sink} {d : Delivery}
    (hs : (Instr.deliver sink d).Knows w.past) : w.Teaches (w.execDeliver sink d) := by
  cases sink with
  | effect target => exact notify (.start h) hs _
  | script tag next env => exact one ((Learns.start h).enter _) trivial

/-! ### Scripts -/

theorem register {w' : World} (h : w.Learns w') (label : Option String) (v : Value) :
    w.Learns (w'.register label v) := by
  unfold World.register
  split
  · exact h.of_eq rfl rfl rfl rfl
  · exact h

theorem finishScript {w' : World} (h : w.Learns w') (turn : Turn) (s : ScriptBody)
    (a : Answer) : w.Teaches (w'.finishScript turn s a) :=
  two h trivial trivial trivial

theorem raise {w' : World} (h : w.Learns w') (turn : Turn) (s : ScriptBody)
    (m : Mailbox Effect) (f : Fault) : w.Teaches (w'.raise turn s m f) := by
  unfold World.raise
  split
  · exact one h trivial
  · exact finishScript h turn s _

theorem awaitAll {w' : World} (h : w.Learns w') (turn : Turn) (s : ScriptBody)
    (m : Mailbox Effect) (p : Pause) : w.Teaches (w'.awaitAll turn s m p) := by
  unfold World.awaitAll
  simp only
  split
  · unfold World.resumeScript
    split
    · exact one (register h _ _) trivial
    · exact raise h turn _ _ _
    · exact one h trivial
    · exact one (h.enter _) trivial
  · exact one h trivial

theorem withEffects {α : Type} {w' : World} (h : w.Learns w') (turn : Turn) (s : ScriptBody)
    (m : Mailbox Effect) (built : Except Fault α) {next : α → Config}
    (hn : ∀ a, w.Teaches (next a)) : w.Teaches (w'.withEffects turn s m built next) := by
  unfold World.withEffects
  split
  · exact hn _
  · exact raise h turn s m _

theorem execStmt {w' : World} (h : w.Learns w') (turn : Turn) (s : ScriptBody)
    (m : Mailbox Effect) (stmt : Stmt) : w.Teaches (w'.execStmt turn s m stmt) := by
  cases stmt with
  | perform effect name label => exact withEffects h turn s m _ fun _ => awaitAll h turn s m _
  | assign name x label => exact one (register h _ _) trivial
  | log tag x => exact one (h.enter _) trivial
  | guard name ops => exact one h trivial
  | «return» x => exact finishScript h turn s _
  | fail f => exact raise h turn s m f
  | attempt body handler => exact one h trivial
  | rethrow => exact raise h turn s m _
  | ifThen test yes no => exact one h trivial
  | «repeat» times body => exact one h trivial
  | ops os => exact two h trivial trivial trivial
  | foreign => exact awaitAll h turn s m { awaiting := [.foreign], resumption := .report }
  | joined effects => exact withEffects h turn s m _ fun _ => awaitAll h turn s m _
  | mixed effect => exact withEffects h turn s m _ fun _ => awaitAll h turn s m _
  | describe effect => exact withEffects h turn s m _ fun _ => one (h.enter _) trivial
  | unknown name => exact raise h turn s m _

theorem spend {w' w'' : World} (h : w.Learns w') (hs : w'.spend = some w'') :
    w.Learns w'' := by
  unfold World.spend at hs
  split at hs
  · cases hs
  · cases hs
    exact h.of_eq rfl rfl rfl rfl

theorem execAdvance (h : w.Knows) {turn : Turn} {s : ScriptBody} {m : Mailbox Effect}
    {c : Config} (hc : w.execAdvance turn s m = some c) : w.Teaches c := by
  have hs := Learns.start h
  unfold World.execAdvance at hc
  split at hc
  · cases hc
    exact finishScript hs turn s _
  · cases hc
    exact one hs trivial
  · obtain ⟨w', hw, rfl⟩ := Option.map_eq_some_iff.1 hc
    exact execStmt (spend hs hw) turn _ m _
  · cases hc
    exact one hs trivial
  · cases hc
    exact one hs trivial
  · obtain ⟨w', hw, rfl⟩ := Option.map_eq_some_iff.1 hc
    exact one (spend hs hw) trivial

theorem execPoll (h : w.Knows) (turn : Turn) (body : Body) (a : Option Answer) :
    w.Teaches (w.execPoll turn body a) := by
  have h1 : w.Learns (w.record turn.mw (.polled turn.task a)) := (Learns.start h).record _
  unfold World.execPoll
  cases body with
  | watcher b => exact one h1 trivial
  | script s =>
    simp only
    split
    · exact one h1 trivial
    · exact awaitAll h1 turn s _ _

theorem execGuards (h : w.Knows) (gs : List Guard) : w.Teaches (w.execGuards gs) := by
  cases gs with
  | nil => exact nil (.start h)
  | cons g gs => exact two ((Learns.start h).enter _) trivial trivial trivial

/-! ### Effects -/

theorem immediate {w' : World} (h : w.Learns w') (turn : Turn) (body : Body)
    (nests : List Nest) (x : EffectId) (signal : Signal) :
    w.Teaches (w'.immediate turn body nests x signal) := one (h.record _) trivial

theorem suspend {w' : World} (h : w.Learns w') (turn : Turn) (body : Body) (nests : List Nest)
    (x : EffectId) (kind : WaitKind) : w.Teaches (w'.suspend turn body nests x kind) :=
  one (h.insertWait x _) trivial

theorem awaitDeferred {w' : World} (h : w.Learns w') (turn : Turn) (body : Body)
    (nests : List Nest) {x : EffectId} (hx : LeafName (w'.past turn.mw) x) (d : DeferredId) :
    w.Teaches (w'.awaitDeferred turn body nests x d) := by
  have h1 : w.Learns (w'.suspend turn body nests x (.call d)).world := h.insertWait x _
  unfold World.awaitDeferred
  simp only
  split
  · have h2 := suspend h turn body nests x (.call d)
    exact ⟨h1, h2.todo, h2.later⟩
  · rename_i deferred hd
    have hl : ∀ r, (deferred.subscribe ⟨turn.mw, x⟩).2.listener = some r →
        LeafName (w'.past r.mw) r.effect := by
      intro r hr
      unfold Deferred.subscribe at hr
      split at hr
      · exact h.knows.listener d deferred hd r hr
      · cases hr
        exact hx
    have h2 := h1.setDeferred (d := d) hl
    split
    · exact one h2 trivial
    · exact one (h2.schedule (i := turn.mw) (r := .settle x _) hx) trivial

theorem startTake {w' : World} (h : w.Learns w') (turn : Turn) (body : Body)
    (nests : List Nest) {x : EffectId} (source : Source) (p : Pattern)
    (hx : ∃ q, .triggered turn.task x q (.take source p) ∈ w'.past turn.mw) :
    w.Teaches (w'.startTake turn body nests x source p) := by
  unfold World.startTake
  cases source with
  | bus =>
    have h1 : w.Learns (w'.setEngine turn.mw fun e =>
        { e with bus := ((w'.engine turn.mw).bus.take turn.task p x).bus }) := by
      refine h.setEngine fun he => { he with bus := ?_ }
      intro t ht
      simp only [Bus.take] at ht
      split at ht
      · exact he.bus t ht
      · rcases List.mem_append.1 ht with ht | ht
        · exact he.bus t ht
        · rw [List.mem_singleton.1 ht]
          exact hx
    simp only
    split
    · exact immediate h1 turn body nests x _
    · exact suspend h1 turn body nests x _
  | channel c =>
    simp only
    split
    · exact immediate h turn body nests x _
    · rename_i channel hc
      have h1 := h.takeChannel hc p (.effect ⟨turn.mw, x⟩) (by
        rintro r ⟨⟩
        obtain ⟨q, hx⟩ := hx
        exact ⟨_, q, _, hx, rfl⟩)
      split
      · exact immediate h1 turn body nests x _
      · exact suspend h1 turn body nests x _

theorem startPut {w' : World} (h : w.Learns w') (turn : Turn) (body : Body)
    (nests : List Nest) {x : EffectId} (hx : PutName (w'.past turn.mw) x) (target : Target) :
    w.Teaches (w'.startPut turn body nests x target) := by
  have h1 := h.insertWait (i := turn.mw) x
    { task := turn.task, link := Nest.link nests, kind := .put }
  cases target with
  | bus a =>
    refine one (h1.queue ?_) trivial
    rintro y ⟨⟩
    exact hx
  | channel c v =>
    refine one (h1.queue ?_) trivial
    rintro y ⟨⟩
    exact hx

theorem startCall {w' : World} (h : w.Learns w') (turn : Turn) (body : Body)
    (nests : List Nest) {x : EffectId} (hx : CallName (w'.past turn.mw) x) (r : Routine) :
    w.Teaches (w'.startCall turn body nests x r) := by
  cases r with
  | sleep ms =>
    refine awaitDeferred (h.addTimer ms _) turn body nests ?_ _
    rw [(untouched_addTimer ms _).past]
    exact hx.leafName
  | scripted c env =>
    have hl : w.Learns (c.label.elim w' fun name => w'.enter (.call name)) := by
      cases c.label with
      | none => exact h
      | some name => exact h.enter _
    refine two hl (by trivial) ?_ trivial
    cases c.label <;> exact hx

theorem execAnswer {turn : Turn} {body : Body} {nests : List Nest} {x : EffectId}
    {result : AnswerExpr} {env : Env} (h : w.Knows)
    (hx : (Instr.answer turn body nests x result env).Knows w.past) :
    w.Teaches (w.execAnswer turn body nests x result env) := by
  have hs := Learns.start h
  have hleaf : LeafName (w.past turn.mw) x := CallName.leafName hx
  cases result with
  | value y => exact immediate hs turn body nests x _
  | fault f => exact immediate hs turn body nests x _
  | deferred name =>
    simp only [World.execAnswer]
    split
    · exact awaitDeferred hs turn body nests hleaf _
    · exact immediate hs turn body nests x _
  | resolved y =>
    exact awaitDeferred (hs.addDeferred (d := .settled (.ok (w.eval env y))) rfl) turn body nests
      hleaf _
  | rejected f =>
    exact awaitDeferred (hs.addDeferred (d := .settled (.error f)) rfl) turn body nests hleaf _
  | timer ms fault y =>
    refine awaitDeferred (hs.addTimer ms _) turn body nests ?_ _
    rw [(untouched_addTimer ms _).past]
    exact hleaf

theorem startFork {w' : World} (h : w.Learns w') (turn : Turn) (body : Body)
    (nests : List Nest) (x : EffectId) (saga : Saga) (detached : Bool) :
    w.Teaches (w'.startFork turn body nests x saga detached) := by
  have h1 := (h.createTask (i := turn.mw) saga (some turn.task) detached).schedule (i := turn.mw)
    (r := .start (w'.nextTaskRef turn.mw saga).id) trivial
  exact immediate h1 turn body nests x _

theorem startJoin {w' : World} (h : w.Learns w') (turn : Turn) (body : Body)
    (nests : List Nest) {x : EffectId} (hx : LeafName (w'.past turn.mw) x) (target : TaskRef) :
    w.Teaches (w'.startJoin turn body nests x target) := by
  unfold World.startJoin
  split
  · exact immediate h turn body nests x _
  · split
    · exact immediate h turn body nests x _
    · split
      · exact immediate h turn body nests x _
      · split
        · exact immediate h turn body nests x _
        · refine suspend (h.setTask fun n y hy => ?_) turn body nests x _
          rcases List.mem_append.1 hy with hy | hy
          · exact Or.inl hy
          · rw [List.mem_singleton.1 hy]
            exact Or.inr hx

theorem startRace {w' : World} (h : w.Learns w') (turn : Turn) (body : Body)
    (nests : List Nest) (x : EffectId) (keys : Option (List String)) (members : List Effect) :
    w.Teaches (w'.startRace turn body nests x keys members) := by
  cases members with
  | nil => exact immediate h turn body nests x _
  | cons e es => exact one (h.insertWait x _) trivial

theorem startAll {w' : World} (h : w.Learns w') (turn : Turn) (body : Body)
    (nests : List Nest) (x : EffectId) (members : List Effect) :
    w.Teaches (w'.startAll turn body nests x members) := by
  cases members with
  | nil => exact immediate h turn body nests x _
  | cons e es => exact one (h.insertWait x _) trivial

theorem startCancel {w' : World} (h : w.Learns w') (turn : Turn) (body : Body)
    (nests : List Nest) (x : EffectId) (target : Option TaskRef) :
    w.Teaches (w'.startCancel turn body nests x target) := by
  cases target with
  | none => exact two h trivial trivial trivial
  | some t =>
    simp only [World.startCancel]
    split
    · exact immediate h turn body nests x _
    · exact two h trivial trivial trivial

theorem execTrigger (h : w.Knows) (turn : Turn) (body : Body) (nests : List Nest)
    (e : Effect) : w.Teaches (w.execTrigger turn body nests e) := by
  unfold World.execTrigger
  split
  · exact one (.start h) trivial
  · have h1 := (((Learns.start h).setEngine (i := turn.mw)
      (f := fun e => { e with nextEffect := (w.engine turn.mw).nextEffect + 1 })
      fun he => { he with }).record (i := turn.mw)
        (.triggered turn.task (w.engine turn.mw).nextEffect (Nest.link nests).parent? e))
    have hm : .triggered turn.task (w.engine turn.mw).nextEffect (Nest.link nests).parent? e ∈
        ((w.setEngine turn.mw fun e => { e with nextEffect := (w.engine turn.mw).nextEffect + 1 }).record
          turn.mw (.triggered turn.task (w.engine turn.mw).nextEffect (Nest.link nests).parent? e)).past
            turn.mw := by
      rw [past_record]
      exact List.mem_cons_self
    have hx : e.fan? = none → LeafName _ _ := fun he => ⟨_, _, _, hm, he⟩
    cases e with
    | take source p => exact startTake h1 turn body nests source p ⟨_, hm⟩
    | put target => exact startPut h1 turn body nests ⟨_, _, _, hm⟩ target
    | call name r => exact startCall h1 turn body nests ⟨_, _, _, _, hm⟩ r
    | fork saga detached => exact startFork h1 turn body nests _ saga detached
    | join target => exact startJoin h1 turn body nests (hx rfl) target
    | race members =>
      simp only [World.startKeyedRace]
      split
      · exact immediate h1 turn body nests _ _
      · exact startRace h1 turn body nests _ _ _
    | racePositional members => exact startRace h1 turn body nests _ _ _
    | all members => exact startAll h1 turn body nests _ _
    | cancel target => exact startCancel h1 turn body nests _ target
    | select key => exact immediate h1.readState turn body nests _ _

theorem resumeBody {w' : World} (h : w.Learns w') (turn : Turn) (body : Body) (start : Start) :
    w.Teaches (w'.resumeBody turn body start) := by
  unfold World.resumeBody
  cases start with
  | halt => exact one h trivial
  | pending x =>
    simp only
    split
    · exact one (h.walk _ _) trivial
    · exact one h trivial
  | immediate signal =>
    simp only
    split
    · exact one h trivial
    · cases signal with
      | ended => exact one h trivial
      | value v =>
        simp only
        split <;> exact one h trivial
      | fault f =>
        simp only
        split <;> exact one h trivial

theorem nextOfRace {w' : World} (h : w.Learns w') (turn : Turn) (body : Body) (x : EffectId)
    (slot : Nat) (rest : List Effect) (nests : List Nest) :
    w.Teaches (w'.nextOfRace turn body x slot rest nests) := by
  cases rest <;> exact one h trivial

theorem nextOfAll {w' : World} (h : w.Learns w') (turn : Turn) (body : Body) (x : EffectId)
    (slot : Nat) (rest : List Effect) (nests : List Nest) :
    w.Teaches (w'.nextOfAll turn body x slot rest nests) := by
  cases rest with
  | cons e es => exact one h trivial
  | nil =>
    simp only [World.nextOfAll]
    split
    · exact immediate (h.setWaits _) turn body nests x _
    · exact one h trivial

theorem execBegun (h : w.Knows) (turn : Turn) (body : Body) (nests : List Nest)
    (start : Start) : w.Teaches (w.execBegun turn body nests start) := by
  have hs := Learns.start h
  cases nests with
  | nil => exact resumeBody hs turn body start
  | cons n nests =>
    cases n with
    | race x slot rest =>
      cases start with
      | pending m => exact nextOfRace (hs.setWaits _) turn body x slot rest nests
      | halt => exact one (hs.walk _ _) trivial
      | immediate signal =>
        simp only [World.execBegun, World.begunInRace]
        split
        · exact one hs trivial
        · exact immediate (hs.walk _ _) turn body nests x _
    | all x slot rest =>
      cases start with
      | pending m => exact nextOfAll (hs.setWaits _) turn body x slot rest nests
      | halt => exact one (hs.walk _ _) trivial
      | immediate signal =>
        cases signal with
        | value v => exact nextOfAll (hs.setWaits _) turn body x slot rest nests
        | _ =>
          simp only [World.execBegun, World.begunInAll]
          split
          · exact immediate hs turn body nests x _
          · exact immediate (hs.walk _ _) turn body nests x _

theorem execPolled (h : w.Knows) (turn : Turn) (body : Body) (step : Step Effect) :
    w.Teaches (w.execPolled turn body step) := by
  unfold World.execPolled
  split
  · exact one (.start h) trivial
  · cases step <;> exact one (.start h) trivial

/-! ### The end of tasks -/

theorem cascadeOn {r : Option Cascade × World} (h : w.Learns r.2) :
    w.Teaches (World.cascadeOn i r) := by
  unfold World.cascadeOn
  split
  · exact nil h
  · exact one h trivial

theorem execLeave (h : w.Knows) (turn : Turn) (body : Body) (exit : Exit) :
    w.Teaches (w.execLeave turn body exit) := by
  have h1 := (Learns.start h).setEngine (i := turn.mw) (f := fun e => { e with current := none })
    fun he => { he with }
  cases exit with
  | suspended x => exact nil (h1.park _ _ _)
  | yielded signal => exact nil ((h1.park _ _ _).schedule trivial)
  | finished a => cases a <;> exact two h1 trivial trivial trivial
  | ended => exact two h1 trivial trivial trivial
  | halted => exact two h1 trivial trivial trivial

theorem execReturned (h : w.Knows) (turn : Turn) (v : Value) :
    w.Teaches (w.execReturned turn v) := by
  have hs := Learns.start h
  unfold World.execReturned
  split
  · exact nil hs
  · split
    · exact nil hs
    · split
      · refine one (hs.setTask' ?_) (by trivial)
        exact fun _ => rfl
      · refine nil (hs.setTask' ?_)
        exact fun _ => rfl

theorem execCascade (h : w.Knows) (c : Cascade) : w.Teaches (w.execCascade i c) := by
  have hs := Learns.start h
  cases c with
  | abort t f => exact one hs trivial
  | complete t =>
    simp only [World.execCascade]
    split
    · exact nil hs
    · split
      · exact nil hs
      · split
        · exact nil hs
        · refine cascadeOn (Learns.finalize (hs.setTask' ?_) _ _)
          exact fun _ => rfl

theorem dropping_nameless (turn : Turn) (body : Option Body) :
    ∀ x ∈ World.dropping turn body, x.Nameless := by
  intro x hx
  cases body with
  | none => cases hx
  | some b =>
    rw [List.mem_singleton.1 hx]
    exact ⟨fun _ => trivial, trivial⟩

theorem execAbort (h : w.Knows) (turn : Turn) (f : Fault) : w.Teaches (w.execAbort turn f) := by
  have hs := Learns.start h
  unfold World.execAbort
  split
  · exact nil hs
  · split
    · exact nil hs
    · refine of_nameless (Learns.cancelPending (hs.setTask' ?_) _) ?_
      · exact fun _ => rfl
      · intro x hx
        rcases List.mem_append.1 hx with hx | hx
        · rcases List.mem_append.1 hx with hx | hx
          · obtain ⟨t, -, rfl⟩ := List.mem_map.1 hx
            exact ⟨fun _ => trivial, trivial⟩
          · exact dropping_nameless _ _ x hx
        · rw [List.mem_singleton.1 hx]
          exact ⟨fun _ => trivial, trivial⟩

theorem execAbortDone (h : w.Knows) (turn : Turn) (f : Fault) (wasCurrent : Bool) :
    w.Teaches (w.execAbortDone turn f wasCurrent) := by
  have hs := Learns.start h
  unfold World.execAbortDone
  split
  · exact nil (hs.setEngine fun he => { he with })
  · exact cascadeOn (hs.finalize _ _)

theorem execConclude (h : w.Knows) (turn : Turn) : w.Teaches (w.execConclude turn) := by
  have h1 := (Learns.start h).setEngine (i := turn.mw) (f := fun e => { e with halted := none })
    fun he => { he with }
  exact cascadeOn (h1.finalize _ _)

theorem execCancel (h : w.Knows) (root : TaskId) : w.Teaches (w.execCancel i root) := by
  unfold World.execCancel
  simp only
  split
  · refine one ?_ trivial
    generalize (w.engine i).tasks.cancellationOrder root = order
    have hf : ∀ (w' : World), w.Learns w' → w.Learns (order.foldl
        (fun w id => w.setTask i id fun n => { n with status := .cancelled }) w') := by
      induction order with
      | nil => exact fun w' h' => h'
      | cons t order ih => exact fun w' h' => ih _ (h'.setTask' fun _ => rfl)
    exact hf w (.start h)
  · exact nil (.start h)

theorem execCancelEach (h : w.Knows) (order : List TaskId) (cascades : List Cascade) :
    w.Teaches (w.execCancelEach i order cascades) := by
  have hs := Learns.start h
  unfold World.execCancelEach
  split
  · refine of_nameless hs ?_
    intro x hx
    obtain ⟨c, -, rfl⟩ := List.mem_map.1 hx
    exact ⟨fun _ => trivial, trivial⟩
  · split
    · exact one hs trivial
    · refine of_nameless (Learns.cancelPending (hs.setTask' ?_) _) ?_
      · exact fun _ => rfl
      · intro x hx
        rcases List.mem_append.1 hx with hx | hx
        · exact dropping_nameless _ _ x hx
        · rw [List.mem_singleton.1 hx]
          exact ⟨fun _ => trivial, trivial⟩

theorem execCancelOne (h : w.Knows) (turn : Turn) (wasCurrent : Bool) (rest : List TaskId)
    (cascades : List Cascade) : w.Teaches (w.execCancelOne turn wasCurrent rest cascades) := by
  have hs := Learns.start h
  unfold World.execCancelOne
  split
  · exact one (hs.setEngine fun he => { he with }) trivial
  · exact one (hs.finalize _ _) trivial

/-! ### Operations -/

theorem reply_nameless (site : Site) (name : String) (r : Reply) :
    ∀ x ∈ [Instr.reply site name r], x.Nameless := by
  intro x hx
  rw [List.mem_singleton.1 hx]
  exact ⟨fun _ => trivial, trivial⟩

theorem settleDeferred {w' : World} (h : w.Learns w') (d : DeferredId) (a : Answer) :
    w.Teaches (w'.settleDeferred d a).2 := by
  unfold World.settleDeferred
  split
  · exact nil h
  · rename_i deferred hd
    have hset : (∀ r, (deferred.settle a).deferred.listener = some r →
        LeafName (w'.past r.mw) r.effect) ∧ ∀ r, (deferred.settle a).listener = some r →
        LeafName (w'.past r.mw) r.effect := by
      unfold Deferred.settle
      split
      · exact ⟨h.knows.listener d deferred hd, fun r hr => by cases hr⟩
      · refine ⟨?_, h.knows.listener d deferred hd⟩
        intro r hr
        cases hr
    have h1 := h.setDeferred (d := d) hset.1
    simp only
    split
    · exact nil h1
    · rename_i target ht
      exact notify h1 (hset.2 target ht) _

theorem opRun {w' : World} (h : w.Learns w') (site : Site) (env : Env) (j : MiddlewareId)
    (s : SagaExpr) (label : Option String) : w.Teaches (w'.opRun site env j s label) := by
  have h1 := (h.createTask (i := j) (w'.evalSaga env s) none false).schedule (i := j)
    (r := .start (w'.nextTaskRef j (w'.evalSaga env s)).id) trivial
  refine followedBy (enterDriver h1 fun x hx => by cases hx) ?_
  intro x hx
  rw [List.mem_singleton.1 hx]
  exact ⟨fun _ => trivial, trivial⟩

theorem opDispatch {w' : World} (h : w.Learns w') (site : Site) (j : MiddlewareId)
    (a : Action) : w.Teaches (w'.opDispatch site j a) := by
  unfold World.opDispatch
  split
  · exact one (h.queue fun x hx => by cases hx) trivial
  · exact one (h.setEngine (i := j) (f := fun e => { e with driving := true })
      fun he => { he with }) trivial

theorem opFinish {w' : World} (h : w.Learns w') (site : Site) (j : MiddlewareId) :
    w.Teaches (w'.opFinish site j) := by
  unfold World.opFinish
  split
  · exact one (h.queue fun x hx => by cases hx) trivial
  · exact followedBy (enterDriver h.endBus fun x hx => by cases hx) (reply_nameless _ _ _)

theorem opCancel {w' : World} (h : w.Learns w') (site : Site) (t : TaskRef) :
    w.Teaches (w'.opCancel site t) := by
  unfold World.opCancel
  split
  · exact one h trivial
  · refine followedBy (enterDriver h ?_) (reply_nameless _ _ _)
    intro x hx
    rw [List.mem_singleton.1 hx]
    exact ⟨fun _ => trivial, trivial⟩

theorem opPut {w' : World} (h : w.Learns w') (site : Site) {c : ChannelId}
    {channel : Channel Sink} (hc : w'.channels.get? c = some channel) (v : Value) :
    w.Teaches (w'.opPut site c channel v) := by
  obtain ⟨h1, h2⟩ := h.putChannel hc v
  unfold World.opPut
  simp only
  split
  · exact one h1 trivial
  · rename_i t ht
    refine two h1 ?_ trivial trivial
    cases hs : t.sink with
    | effect r => exact h2 t ht r hs
    | script => trivial
  · exact one h1 trivial

theorem opTake {w' : World} (h : w.Learns w') (site : Site) (env : Env) {c : ChannelId}
    {channel : Channel Sink} (hc : w'.channels.get? c = some channel) (p : Pattern)
    (tag : String) (next : List Op) : w.Teaches (w'.opTake site env c channel p tag next) := by
  have h1 := h.takeChannel hc p (.script tag next env) fun r hr => by cases hr
  unfold World.opTake
  simp only
  split
  · exact two h1 trivial trivial trivial
  · exact one h1 trivial

theorem opClose {w' : World} (h : w.Learns w') (site : Site) {c : ChannelId}
    {channel : Channel Sink} (hc : w'.channels.get? c = some channel) :
    w.Teaches (w'.opClose site c channel) := by
  have ht := h.knows.channel c channel hc
  have hclose : (∀ t ∈ channel.close.1, t ∈ channel.takers) ∧
      ∀ t ∈ channel.close.2.takers, t ∈ channel.takers := by
    unfold Channel.close
    split
    · refine ⟨?_, fun t h => h⟩
      intro t h
      cases h
    · exact ⟨fun t h => h, fun t h => by cases h⟩
  have hall : ∀ x ∈ channel.close.1.map (fun t => Instr.deliver t.sink .ended) ++
      [.reply site "close" .ok], x.Knows w'.past ∧ x.Later := by
    intro x hx
    rcases List.mem_append.1 hx with hx | hx
    · obtain ⟨t, htt, rfl⟩ := List.mem_map.1 hx
      refine ⟨?_, trivial⟩
      cases hs : t.sink with
      | effect r => exact ht t (hclose.1 t htt) r hs
      | script => trivial
    · rw [List.mem_singleton.1 hx]
      exact ⟨trivial, trivial⟩
  exact ⟨h.setChannel fun t h' => ht t (hclose.2 t h'), fun x hx => (hall x hx).1,
    fun x hx => (hall x (List.mem_of_mem_tail hx)).2⟩

theorem opUntake {w' : World} (h : w.Learns w') (tag : String) :
    w.Learns (w'.opUntake tag).2 := by
  unfold World.opUntake
  split
  · exact h
  · split
    · exact h
    · rename_i c id _ channel hc
      exact h.setChannel fun t ht => h.knows.channel _ channel hc t (List.mem_filter.1 ht).1

theorem opWatch {w' : World} (h : w.Learns w') (t : TaskRef) (tag : String) :
    w.Learns (w'.opWatch t tag).2 := by
  unfold World.opWatch
  simp only
  split <;> exact h.of_eq rfl rfl rfl rfl

theorem opDrop {w' : World} (h : w.Learns w') (site : Site) (j : MiddlewareId) :
    w.Teaches (w'.opDrop site j) := by
  unfold World.opDrop
  split
  · rename_i m hm
    refine of_nameless ⟨h.past, ?_, ?_, h.knows.channel, h.knows.listener⟩ ?_
    · intro k
      rw [← h.has k]
      by_cases hk : k = j
      · subst hk
        simp [Has, (Option.filter_eq_some_iff.1 hm).1]
      · simp [Has, hk]
    · intro k
      by_cases hk : k = j
      · subst hk
        simp only [World.engine, Table.get?_insert, if_true]
        exact .init _ rfl rfl rfl
      · simp only [World.engine, Table.get?_insert, hk, if_false]
        exact h.knows.engine k
    · intro x hx
      rcases List.mem_append.1 hx with hx | hx
      · obtain ⟨e, -, hx⟩ := List.mem_flatMap.1 hx
        obtain ⟨b, -, rfl⟩ := Option.map_eq_some_iff.1 (Option.mem_toList.1 hx)
        exact ⟨fun _ => trivial, trivial⟩
      · exact reply_nameless _ _ _ x hx
  · exact one h trivial
  · exact one h trivial

theorem opAdvance {w' : World} (h : w.Learns w') (site : Site) (ms : Nat) :
    w.Teaches (w'.opAdvance site ms) := by
  unfold World.opAdvance
  split
  · exact two h trivial trivial trivial
  · exact one h trivial
  · exact one h trivial

theorem execMoveClock (h : w.Knows) (target : Nat) : w.Teaches (w.execMoveClock target) := by
  have hs := Learns.start h
  unfold World.execMoveClock
  split
  · exact nil (hs.of_eq rfl rfl rfl rfl)
  · rename_i t _
    have h1 : w.Learns { w with now := t.deadline, timers := w.timers.filter fun u => u.id ≠ t.id } :=
      hs.of_eq rfl rfl rfl rfl
    refine followedBy (settleDeferred h1 t.deferred t.answer) ?_
    intro x hx
    rw [List.mem_singleton.1 hx]
    exact ⟨fun _ => trivial, trivial⟩

theorem withMiddleware {w' : World} (h : w.Learns w') (site : Site) (o : Op) (j : MiddlewareId)
    {f : Middleware → Config} (hf : ∀ m, w.Teaches (f m)) :
    w.Teaches (w'.withMiddleware site o j f) := by
  unfold World.withMiddleware
  split
  · exact one h trivial
  · exact hf _

theorem withTask {w' : World} (h : w.Learns w') (site : Site) (env : Env) (o : Op) (x : Expr)
    {f : TaskRef → Config} (hf : ∀ t, w.Teaches (f t)) :
    w.Teaches (w'.withTask site env o x f) := by
  unfold World.withTask
  split
  · exact hf _
  · exact one h trivial

theorem withChannel {w' : World} (h : w.Learns w') (site : Site) (o : Op) (name : String)
    {f : ChannelId → Channel Sink → Config}
    (hf : ∀ c channel, w'.channels.get? c = some channel → w.Teaches (f c channel)) :
    w.Teaches (w'.withChannel site o name f) := by
  unfold World.withChannel
  split
  · exact one h trivial
  · split
    · exact one h trivial
    · rename_i hc
      exact hf _ _ hc

theorem opSettle {w' : World} (h : w.Learns w') (site : Site) (o : Op) (name : String)
    (a : Answer) : w.Teaches (w'.opSettle site o name a) := by
  unfold World.opSettle
  split
  · exact one h trivial
  · exact followedBy (settleDeferred h _ a) (reply_nameless _ _ _)

theorem runOp {w' : World} (h : w.Learns w') (site : Site) (env : Env) (o : Op) :
    w.Teaches (w'.runOp site env o) := by
  cases o with
  | run j s label => exact withMiddleware h site _ j fun _ => opRun h site env j s label
  | dispatch j a => exact withMiddleware h site _ j fun _ => opDispatch h site j _
  | finish j => exact withMiddleware h site _ j fun _ => opFinish h site j
  | live j => exact withMiddleware h site _ j fun _ => one h trivial
  | state j => exact withMiddleware h site _ j fun _ => one h.readState trivial
  | settings j => exact withMiddleware h site _ j fun _ => one h trivial
  | cancel x => exact withTask h site env _ x fun t => opCancel h site t
  | inspect x => exact withTask h site env _ x fun t => one h trivial
  | sameTask a b => exact one h trivial
  | watch x tag => exact withTask h site env _ x fun t => one (opWatch h t tag) trivial
  | wakes tag => exact one h trivial
  | put name x => exact withChannel h site _ name fun c channel hc => opPut h site hc _
  | take name p tag next =>
    exact withChannel h site _ name fun c channel hc => opTake h site env hc p tag next
  | untake tag => exact one (opUntake h tag) trivial
  | close name => exact withChannel h site _ name fun c channel hc => opClose h site hc
  | sameChannel a b => exact one h trivial
  | showChannel name => exact withChannel h site _ name fun c channel _ => one h trivial
  | resolve name x => exact opSettle h site _ name _
  | reject name f => exact opSettle h site _ name _
  | showDeferred name =>
    simp only [World.runOp]
    split <;> exact one h trivial
  | log tag x => exact one (h.enter _) trivial
  | drop j => exact opDrop h site j
  | advance ms => exact opAdvance h site ms
  | unknown name => exact one h trivial

theorem exec {x : Instr} (h : w.Knows) (hx : x.Knows w.past) {c : Config}
    (hc : x.exec w = some c) : w.Teaches c := by
  have hs := Learns.start h
  cases x with
  | advance turn s m => exact execAdvance h hc
  | op site env o =>
    obtain ⟨w', hw, rfl⟩ := Option.map_eq_some_iff.1 hc
    exact runOp (spend hs hw) site env o
  | drain i => cases hc; exact execDrain h
  | perform i job => cases hc; exact execPerform h hx
  | schedule i r =>
    cases hc
    obtain ⟨y, signal, rfl, hy⟩ := hx
    exact nil (hs.schedule hy)
  | poll turn body a => cases hc; exact execPoll h turn body a
  | polled turn body step => cases hc; exact execPolled h turn body step
  | trigger turn body nests e => cases hc; exact execTrigger h turn body nests e
  | answer turn body nests y result env => cases hc; exact execAnswer h hx
  | cancelDone turn body nests y =>
    cases hc
    unfold World.execCancelDone
    split
    · exact one hs trivial
    · exact immediate hs turn body nests y _
  | begun turn body nests start => cases hc; exact execBegun h turn body nests start
  | leave turn body exit => cases hc; exact execLeave h turn body exit
  | dropBody turn body => cases hc; exact one (hs.record _) trivial
  | returned turn v => cases hc; exact execReturned h turn v
  | abort turn f => cases hc; exact execAbort h turn f
  | abortDone turn f b => cases hc; exact execAbortDone h turn f b
  | conclude turn => cases hc; exact execConclude h turn
  | cascade i c => cases hc; exact execCascade h c
  | cancel i root => cases hc; exact execCancel h root
  | cancelEach i order cascades => cases hc; exact execCancelEach h order cascades
  | cancelOne turn b rest cascades => cases hc; exact execCancelOne h turn b rest cascades
  | emit i a sender => cases hc; exact execEmit h hx
  | forwarded i a sender => cases hc; exact execForwarded h hx
  | deliver sink d => cases hc; exact execDeliver h hx
  | guards gs => cases hc; exact execGuards h gs
  | ops env os =>
    cases hc
    cases os with
    | nil => exact nil hs
    | cons o os => exact two hs trivial trivial trivial
  | reply site name r =>
    cases hc
    cases site with
    | outside => exact nil (hs.of_eq rfl rfl rfl rfl)
    | nested => exact nil (hs.enter _)
  | started site label t => cases hc; exact one (register hs label _) trivial
  | registered site tag c id =>
    cases hc
    have h1 : w.Learns { w with takerTags := w.takerTags.insert tag (c, id) } :=
      hs.of_eq rfl rfl rfl rfl
    exact one h1 (by trivial)
  | moveClock target => cases hc; exact execMoveClock h target

end World.Teaches

/-- The first instruction teaches nothing but names of effects without members. -/
theorem Config.Knows.teaches {c : Config} (h : c.Knows) {x : Instr} {rest : List Instr}
    (htodo : c.todo = x :: rest) {next : Config} (hn : x.exec c.world = some next) :
    c.world.Teaches next := by
  rcases h.todo with ⟨o, ho⟩ | hk
  · rw [htodo] at ho
    cases ho
    obtain ⟨w', hw, rfl⟩ := Option.map_eq_some_iff.1 hn
    exact .runOp (World.Teaches.spend (.start h.world) hw) _ _ o
  · exact .exec h.world (hk x (by rw [htodo]; exact List.mem_cons_self)) hn

/-- A step of the machine adds no middleware, and takes none away. -/
theorem Config.Knows.has_iff {c c' : Config} (h : c.Knows) (hc : c.step = some c')
    (i : MiddlewareId) : c'.world.Has i ↔ c.world.Has i := by
  unfold Config.step at hc
  split at hc
  · cases hc
  · rename_i htodo
    obtain ⟨next, hn, rfl⟩ := Option.map_eq_some_iff.1 hc
    exact (h.teaches htodo hn).learns.has i

/-- What a step of the machine leaves to be done names only effects without members. -/
theorem Config.Knows.named {c c' : Config} (h : c.Knows) (hc : c.step = some c') :
    ∀ x ∈ c'.todo, x.Knows c'.world.past := by
  unfold Config.step at hc
  split at hc
  · cases hc
  · rename_i x rest htodo
    obtain ⟨next, hn, rfl⟩ := Option.map_eq_some_iff.1 hc
    have ht : c.world.Teaches next := h.teaches htodo hn
    intro y hy
    rcases List.mem_append.1 hy with hy | hy
    · exact ht.todo y hy
    · rcases h.todo with ⟨o, ho⟩ | hk
      · rw [htodo] at ho
        cases ho
        cases hy
      · exact (hk y (by rw [htodo]; exact List.mem_cons_of_mem _ hy)).mono ht.learns.past

/-- A step of the machine names only effects without members. -/
theorem Config.Knows.step {c c' : Config} (h : c.Knows) (hc : c.step = some c') : c'.Knows := by
  have hnamed := h.named hc
  unfold Config.step at hc
  split at hc
  · cases hc
  · rename_i x rest htodo
    obtain ⟨next, hn, rfl⟩ := Option.map_eq_some_iff.1 hc
    have ht : c.world.Teaches next := h.teaches htodo hn
    have hrest : ∀ y ∈ rest, y.Later := fun y hy => h.later y (by rw [htodo]; exact hy)
    refine ⟨ht.learns.knows, Or.inr hnamed, fun y hy => ?_⟩
    rw [Config.followedBy] at hy
    cases hc : next.todo with
    | nil =>
      simp only [hc, List.nil_append] at hy
      exact hrest y (List.mem_of_mem_tail hy)
    | cons z zs =>
      simp only [hc, List.cons_append, List.tail_cons] at hy
      rcases List.mem_append.1 hy with hy | hy
      · exact ht.later y (by rw [hc]; exact hy)
      · exact hrest y hy

end SagaMachine

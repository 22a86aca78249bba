import SagaMachine.Proofs.Wirings

/-!
# Registrations and everything else

The driver carries out jobs, user code acts on channels and deferreds, tasks are torn down, and
a middleware is dropped: pending effects, registrations and settlements on their way fit together
afterwards, if they did before.

Main statements: `Config.Wired.execPerform`, `Config.Wired.runOp`.
-/

namespace SagaMachine

/-! ## The agenda -/

/-- A job ends with the settlement of an effect. -/
def Job.Owes (x : EffectId) : Job → Prop
  | .reaction r => ∃ signal, r = .settle x signal
  | .errand e => e.reply? = some x

theorem Job.owes_iff {i : MiddlewareId} {x : EffectId} {job : Job} :
    (Instr.perform i job).Settles ⟨i, x⟩ ↔ job.Owes x := by
  cases job with
  | reaction r =>
    cases r with
    | settle y signal => simp [Instr.Settles, Job.Owes, eq_comm]
    | _ => simp [Instr.Settles, Job.Owes]
  | errand e => simp [Instr.Settles, Job.Owes]

namespace Agenda

variable {a a' : Agenda} {x : EffectId}

theorem owes_flush : a.flush.Owes x ↔ a.Owes x := by
  have : ∀ r, (r ∈ a.fresh ++ a.stack ∨ r ∈ ([] : List Reaction)) ↔ r ∈ a.stack ∨ r ∈ a.fresh :=
    fun r => by simp [or_comm]
  simp only [Owes, flush, this]

/-- The next job is taken off the agenda. -/
theorem owes_next? {job : Job} (h : a.next? = some (job, a')) :
    a.Owes x ↔ job.Owes x ∨ a'.Owes x := by
  rw [← owes_flush]
  unfold next? at h
  simp only at h
  split at h
  · rename_i r rest hs
    cases h
    have : ∀ signal, (.settle x signal ∈ a.flush.stack ∨ .settle x signal ∈ a.flush.fresh) ↔
        r = .settle x signal ∨ .settle x signal ∈ rest ∨ .settle x signal ∈ a.flush.fresh := by
      intro signal
      rw [hs, List.mem_cons, or_assoc, eq_comm]
    simp only [Owes, Job.Owes, this, exists_or, or_assoc]
  · split at h
    · rename_i e rest he
      cases h
      simp only [Owes, Job.Owes, he, List.mem_cons, exists_eq_or_imp]
      exact or_left_comm
    · cases h

end Agenda

theorem World.mem_of_dueTimer? {w : World} {limit : Nat} {t : Timer} (h : w.dueTimer? limit = some t) :
    t ∈ w.timers := by
  revert t
  unfold dueTimer?
  refine List.foldlRecOn (motive := fun best => ∀ {t}, best = some t → t ∈ w.timers) w.timers _
    (fun h => by cases h) fun best hbest u hu t h => ?_
  split at h
  · exact hbest h
  · split at h
    · cases h
      exact hu
    · split at h
      · cases h
        exact hu
      · exact hbest h

/-- The settlement of the effect that waits for the result of a broadcast. -/
def Sender.settling (i : MiddlewareId) (signal : Signal) : Sender → List Instr
  | .effect x => [.schedule i (.settle x signal)]
  | _ => []

namespace Config.Wired

variable {A : Prop} {w : World} {F : List Instr} {i : MiddlewareId} {x : EffectId}

/-! ## The driver -/

theorem execDrain (h : Wired A ⟨F, w⟩) : Wired A ((w.execDrain i).followedBy F) := by
  unfold World.execDrain
  cases hn : (w.engine i).agenda.next? with
  | none =>
    have h1 : Wired A ⟨F, w.setEngine i fun e =>
        { e with agenda := e.agenda.flush, driving := false }⟩ :=
      h.calm (.setEngine' rfl rfl rfl Agenda.owes_flush)
    exact h1
  | some r =>
    obtain ⟨job, agenda⟩ := r
    have h1 : Wired A ⟨.perform i job :: F, w.setEngine i fun e => { e with agenda }⟩ := by
      refine h.agenda rfl rfl rfl (fun {y} => ?_) (fun {r} hr => ?_) (fun y hy r hm => ?_)
        fun y hy d id ht => ?_
      · simp only [List.mem_cons, exists_eq_or_imp, Agenda.owes_next? hn, Job.owes_iff]
        rw [or_left_comm, or_assoc]
      · simp only [List.mem_cons, exists_eq_or_imp]
        refine or_iff_right ?_
        intro hs
        cases job with
        | reaction r' =>
          cases r' with
          | settle y signal => exact hr (by rw [show r = ⟨i, y⟩ from hs])
          | _ => exact hs
        | errand e =>
          obtain ⟨y, -, rfl⟩ := hs
          exact hr rfl
      · rcases List.mem_cons.1 hy with rfl | hy
        · cases hm
        · exact ⟨y, hy, hm⟩
      · rcases List.mem_cons.1 hy with rfl | hy
        · cases ht
        · exact ⟨y, hy, ht⟩
    have h2 : Wired A ⟨.drain i :: .perform i job :: F, w.setEngine i fun e => { e with agenda }⟩ :=
      h1.cons (.of_plays rfl)
    exact h2.perm fun y => by simp [or_left_comm]

/-- A job is carried out; nothing is at hand in the wait table meanwhile. -/
theorem execPerform {job : Job} (h : Wired A ⟨.perform i job :: F, w⟩) (hi : w.Has i)
    (hF : Waits.Forest (w.engine i).waits [] .task)
    (hW : ∀ {z wait}, (w.engine i).waits.get? z = some wait → wait.kind.Whole)
    (hl : ∀ {y signal wait}, job = .reaction (.settle y signal) →
      (w.engine i).waits.get? y = some wait → wait.kind.IsLeaf) :
    Wired A ((w.execPerform i job).followedBy F) := by
  cases job with
  | reaction r =>
    cases r with
    | start t =>
      have h1 : Wired A ⟨F, w⟩ := h.tail fun r _ hr => hr
      exact h1.quiet (.beginTurn i t none none)
    | resume t signal =>
      have h1 : Wired A ⟨F, w⟩ := h.tail fun r _ hr => hr
      exact h1.quiet (.beginTurn i t none (some signal))
    | settle y signal =>
      have h1 := h.settleWait hi (x := y) (fun r => Iff.rfl) hF hW (hl rfl) signal
      simp only [World.execPerform]
      split
      · exact h1
      · exact h1.quiet (.beginTurn ..)
  | errand e =>
    cases e with
    | dispatch a reply =>
      refine Wired.calm (h.relay (y := .emit i a (reply.elim .nobody .effect)) ⟨fun r => ?_,
        fun r hm => hm, fun _ _ ht => ht⟩) (.record _)
      cases reply with
      | none => simp [Instr.Settles, Errand.reply?]
      | some y => simp [Instr.Settles, Errand.reply?]
    | put c v reply =>
      refine Wired.putForEffect (fun signal => ?_) c v
      refine Wired.calm (h.relay ⟨fun r => ?_, fun r hm => hm, fun _ _ ht => ht⟩) (.record _)
      simp [Instr.Settles, Errand.reply?]
    | finish =>
      have h1 : Wired A ⟨F, w⟩ := h.tail fun r _ hr => by
        obtain ⟨y, hy, -⟩ := hr
        cases hy
      exact (h1.calm (.record _)).endBus hi

theorem execEmit {a : Action} {sender : Sender} (h : Wired A ⟨.emit i a sender :: F, w⟩)
    (hi : w.Has i) : Wired A ((w.execEmit i a sender).followedBy F) := by
  have h1 : Wired A ⟨.forwarded i a sender :: F, w.record i (.dispatched a)⟩ := by
    refine (h.relay (y := .forwarded i a sender) ⟨fun r => ?_, fun r hm => hm, fun _ _ ht => ht⟩).calm
      (.record _)
    cases sender <;> exact Iff.rfl
  unfold World.execEmit
  split
  · rename_i hm
    obtain ⟨m, hm'⟩ := hi
    rw [hm] at hm'
    cases hm'
  · simp only
    split
    · exact h1
    · exact (h1.calm (.enter _)).cons (.of_plays rfl)

theorem finishEmit {a : Action} {sender : Sender} {w' : World}
    (h : ∀ signal, Wired A ⟨sender.settling i signal ++ F, w'⟩) (result : Except Fault Unit) :
    Wired A ((w'.finishEmit i a sender result).followedBy F) := by
  cases sender with
  | effect x => exact (h _).schedule
  | caller site => exact (h .ended).quiet (.of_calm (.refl _) rfl)
  | nobody =>
    cases result with
    | ok u => exact h .ended
    | error f => exact (h .ended).calm (.record _)

theorem execForwarded {a : Action} {sender : Sender} (h : Wired A ⟨.forwarded i a sender :: F, w⟩)
    (hi : w.Has i) : Wired A ((w.execForwarded i a sender).followedBy F) := by
  have h1 : ∀ signal, Wired A ⟨sender.settling i signal ++ F, w⟩ := by
    intro signal
    cases sender with
    | effect x => exact h.relay ⟨fun r => Iff.rfl, fun r hm => hm, fun _ _ ht => ht⟩
    | _ => exact h.tail fun r _ hr => hr
  unfold World.execForwarded
  split
  · rename_i hm
    obtain ⟨m, hm'⟩ := hi
    rw [hm] at hm'
    cases hm'
  · split
    · exact finishEmit h1 _
    · refine finishEmit (fun signal => ?_) _
      have hc : w.Calm (w.reduceHost i a) := .reduceHost a
      refine ((h1 signal).calm hc).broadcast ?_ a
      rw [World.has_iff, hc.alive, ← World.has_iff]
      exact hi

theorem execDeliver {sink : Sink} {d : Delivery} (h : Wired A ⟨.deliver sink d :: F, w⟩) :
    Wired A ((w.execDeliver sink d).followedBy F) := by
  cases sink with
  | effect r =>
    exact Wired.notify (h.relay ⟨fun s => Iff.rfl, fun s hm => hm, fun _ _ ht => ht⟩)
  | script tag next env =>
    exact ((h.tail fun r _ hr => hr).calm (.enter _)).quiet (.of_calm (.refl _) rfl)

/-- The settlement of an effect is scheduled. -/
theorem execSchedule {r : Reaction} (h : Wired A ⟨.schedule i r :: F, w⟩) :
    Wired A ⟨F, w.schedule i r⟩ := by
  cases r with
  | settle y signal => exact h.schedule
  | start t => exact (h.tail fun r _ hr => hr).calm (.schedule fun y signal hy => by cases hy)
  | resume t s => exact (h.tail fun r _ hr => hr).calm (.schedule fun y signal hy => by cases hy)

/-! ## The end of tasks -/

theorem execAbort (h : Wired A ⟨F, w⟩) (turn : Turn) (hi : w.Has turn.mw) (f : Fault) :
    Wired A ((w.execAbort turn f).followedBy F) := by
  unfold World.execAbort
  split
  · exact h
  · split
    · exact h
    · rename_i n _ _
      have h1 : Wired A ⟨F, w.setTask turn.mw turn.task fun n =>
          { n with status := .aborted, pending := none, body := none }⟩ :=
        h.calm (.setTask fun _ => rfl)
      refine Wired.mute (h1.cancelPending (World.has_setEngine.2 hi) n.pending) ?_
      intro y hy
      simp only [List.mem_append, List.mem_map, List.mem_singleton] at hy
      rcases hy with (⟨t, -, rfl⟩ | hy) | rfl
      · exact .of_plays rfl
      · cases hb : n.body with
        | none =>
          rw [hb] at hy
          cases hy
        | some b =>
          rw [hb] at hy
          rw [List.mem_singleton.1 hy]
          exact .of_plays rfl
      · exact .of_plays rfl

theorem execAbortDone (h : Wired A ⟨F, w⟩) (turn : Turn) (hi : w.Has turn.mw) (f : Fault)
    (wasCurrent : Bool) : Wired A ((w.execAbortDone turn f wasCurrent).followedBy F) := by
  unfold World.execAbortDone
  split
  · have h1 : Wired A ⟨F, w.setEngine turn.mw fun e => { e with halted := some (.aborted f) }⟩ :=
      h.calm (.setEngine' rfl rfl rfl Iff.rfl)
    exact h1
  · exact Wired.cascadeOn (h.finalize hi _ _)

theorem execConclude (h : Wired A ⟨F, w⟩) (turn : Turn) (hi : w.Has turn.mw) :
    Wired A ((w.execConclude turn).followedBy F) := by
  have h1 : Wired A ⟨F, w.setEngine turn.mw fun e => { e with halted := none }⟩ :=
    h.calm (.setEngine' rfl rfl rfl Iff.rfl)
  exact Wired.cascadeOn (h1.finalize (World.has_setEngine.2 hi) _ _)

theorem execCancel (h : Wired A ⟨F, w⟩) (root : TaskId) :
    Wired A ((w.execCancel i root).followedBy F) := by
  unfold World.execCancel
  simp only
  split
  · refine Wired.quiet (h.calm (.foldl (f := fun w t =>
      w.setTask i t fun n => { n with status := .cancelled }) (fun w t => ?_) w _))
        (.of_calm (.refl _) rfl)
    exact .setTask fun _ => rfl
  · exact h

theorem execCancelEach (h : Wired A ⟨F, w⟩) (hi : w.Has i) (order : List TaskId)
    (cascades : List Cascade) : Wired A ((w.execCancelEach i order cascades).followedBy F) := by
  unfold World.execCancelEach
  split
  · refine Wired.mute h fun y hy => ?_
    obtain ⟨c, -, rfl⟩ := List.mem_map.1 hy
    exact .of_plays rfl
  · rename_i t rest
    split
    · exact h.quiet (.of_calm (.refl _) rfl)
    · rename_i n _
      have h1 : Wired A ⟨F, w.setTask i t fun n => { n with pending := none, body := none }⟩ :=
        h.calm (.setTask fun _ => rfl)
      refine Wired.quiet (h1.cancelPending (World.has_setEngine.2 hi) n.pending)
        (.of_calm (.refl _) ?_)
      cases n.body <;> rfl

theorem execCancelOne (h : Wired A ⟨F, w⟩) (turn : Turn) (hi : w.Has turn.mw) (wasCurrent : Bool)
    (rest : List TaskId) (cascades : List Cascade) :
    Wired A ((w.execCancelOne turn wasCurrent rest cascades).followedBy F) := by
  unfold World.execCancelOne
  split
  · have h1 : Wired A ⟨F, w.setEngine turn.mw fun e => { e with halted := some .cancelled }⟩ :=
      h.calm (.setEngine' rfl rfl rfl Iff.rfl)
    exact h1.quiet (.of_calm (.refl _) rfl)
  · exact Wired.quiet (h.finalize hi _ _) (.of_calm (.refl _) rfl)

/-! ## What lies outside of the middlewares -/

section Outside

variable {w' : World}

theorem registered_congr (hm : w'.middlewares = w.middlewares) (hc : w'.channels = w.channels)
    (hd : w'.deferreds = w.deferreds) {r : EffectRef} {k : WaitKind} :
    w'.Registered r k ↔ w.Registered r k := by
  have key : ∀ {w w' : World}, w'.middlewares = w.middlewares → w'.channels = w.channels →
      w'.deferreds = w.deferreds → w.Registered r k → w'.Registered r k := by
    intro w w' hm hc hd h
    have he : ∀ j, w'.engine j = w.engine j := fun j => by simp only [World.engine, hm]
    cases h with
    | bus ht he' => exact .bus (by rwa [he]) he'
    | channel hg ht hs => exact .channel (by rwa [hc]) ht hs
    | call hg hl => exact .call (by rwa [hd]) hl
    | join hj => exact .join (by simpa only [World.joiners, World.task?, he] using hj)
  exact ⟨key hm.symm hc.symm hd.symm, key hm hc hd⟩

theorem numbered_congr (h : w.Numbered) (hm : w'.middlewares = w.middlewares)
    (hc : w'.channels = w.channels) (hd : w'.deferreds = w.deferreds) : w'.Numbered := by
  have he : ∀ j, w'.engine j = w.engine j := fun j => by simp only [World.engine, hm]
  refine ⟨fun j => ?_, fun ht => ?_, fun ht hcl => ?_, fun hcl => ?_, fun hg => ?_, fun hg => ?_,
    fun hg => ?_, fun hcl hg => ?_, fun j t => ?_, fun hg => ?_⟩
  · rw [he]
    exact h.bus j
  · rw [he] at ht ⊢
    exact h.busNext ht
  · rw [he] at ht
    exact h.owner ht (hcl.of_middlewares hm.symm)
  · rw [he]
    exact h.onBus (hcl.of_middlewares hm.symm)
  · exact h.channel (hc ▸ hg)
  · exact h.channelNext (hc ▸ hg)
  · exact h.closed (hc ▸ hg)
  · exact h.onChannel (hcl.of_middlewares hm.symm) (hc ▸ hg)
  · simp only [World.joiners, World.task?, he]
    exact h.joiners j t
  · exact h.unsettled (hd ▸ hg)

/-- Nothing changes about middlewares, and about who is registered where. -/
theorem outside (h : Wired A ⟨F, w⟩) (hm : w'.middlewares = w.middlewares)
    (hreg : ∀ {r k}, w'.Registered r k ↔ w.Registered r k) (hn : w'.Numbered) (ht : w'.Timed)
    (htag : ∀ {d id}, Tags ⟨F, w'⟩ d id → ∃ channel, w'.channels.get? d = some channel ∧
      id < channel.nextTaker ∧ ∀ b ∈ channel.takers, b.id = id → ∀ r, b.sink ≠ .effect r) :
    Wired A ⟨F, w'⟩ := by
  have hcl : ∀ {r t k}, w'.Claims r t k ↔ w.Claims r t k :=
    ⟨fun hc => hc.of_middlewares hm.symm, fun hc => hc.of_middlewares hm⟩
  have ho : ∀ {r}, Owes ⟨F, w'⟩ r ↔ Owes ⟨F, w⟩ r := by
    simp only [Owes, World.engine, hm, implies_true]
  refine ⟨hn, ht, htag, fun hA r s t u d h1 h2 => h.sole hA (hcl.1 h1) (hcl.1 h2), fun {r} ha => ?_⟩
  have hf := h.fits (r := r) (by simpa only [World.Alive, World.alive?, hm] using ha)
  refine ⟨fun hr => ?_, fun hr => ?_, fun hmk => ?_, fun hA hc => ?_⟩
  · obtain ⟨t, hc⟩ := hf.backed (hreg.1 hr)
    exact ⟨t, hcl.2 hc⟩
  · rw [ho]
    exact hf.silent (hreg.1 hr)
  · rw [ho]
    obtain ⟨hno, hno'⟩ := hf.making hmk
    exact ⟨fun t k hc => hno t k (hcl.1 hc), hno'⟩
  · rw [ho, hreg]
    exact hf.served hA (hcl.1 hc)

/-- The clock moves, and some timers are gone. -/
theorem filterTimers (h : Wired A ⟨F, w⟩) (now : Nat) (p : Timer → Bool) :
    Wired A ⟨F, { w with now, timers := w.timers.filter p }⟩ := by
  refine h.outside rfl (registered_congr (by rfl) (by rfl) (by rfl)) (numbered_congr h.numbered rfl rfl rfl)
    ⟨fun hm => h.timed.armed (List.mem_filter.1 hm).1, fun hd hid => ?_, h.timed.next, h.timed.named⟩
    fun hd => h.tagged hd
  obtain ⟨h1, h2⟩ := h.timed.timer hd hid
  exact ⟨h1, fun t hm => h2 t (List.mem_filter.1 hm).1⟩

/-- A taker of user code is about to be known by a tag. -/
theorem tag (h : Wired A ⟨F, w⟩) {site : Site} {name : String} {c : ChannelId} {id : TakerId}
    (channel : Channel Sink) (hc : w.channels.get? c = some channel) (hlt : id < channel.nextTaker)
    (hb : ∀ b ∈ channel.takers, b.id = id → ∀ r, b.sink ≠ .effect r) :
    Wired A ⟨.registered site name c id :: F, w⟩ := by
  have ho : ∀ {r}, Owes ⟨.registered site name c id :: F, w⟩ r ↔ Owes ⟨F, w⟩ r :=
    owes_cons.trans (or_iff_right fun hs => hs)
  have hm : ∀ {r}, Makes ⟨.registered site name c id :: F, w⟩ r ↔ Makes ⟨F, w⟩ r := by
    intro r
    simp only [Makes, List.mem_cons, exists_eq_or_imp]
    exact or_iff_right fun hs => hs
  refine ⟨h.numbered, h.timed, fun {d n} hd => ?_, h.sole, fun {r} ha => ?_⟩
  · rcases hd with hd | ⟨y, hy, hd⟩
    · exact h.tagged (Or.inl hd)
    · rcases List.mem_cons.1 hy with rfl | hy
      · obtain ⟨rfl, rfl⟩ := hd
        exact ⟨channel, hc, hlt, hb⟩
      · exact h.tagged (Or.inr ⟨y, hy, hd⟩)
  · have hf := h.fits ha
    exact ⟨hf.backed, fun hr => by rw [ho]; exact hf.silent hr,
      fun hmk => by rw [ho]; exact hf.making (hm.1 hmk),
      fun hA hcl => by rw [ho]; exact hf.served hA hcl⟩

/-- The tag of a taker is known. -/
theorem execRegistered {site : Site} {name : String} {c : ChannelId} {id : TakerId}
    (h : Wired A ⟨.registered site name c id :: F, w⟩) :
    Wired A ((w.execRegistered site name c id).followedBy F) := by
  have h1 : Wired A ⟨F, w⟩ := h.tail fun r _ hr => hr
  have h2 : Wired A ⟨F, { w with takerTags := w.takerTags.insert name (c, id) }⟩ := by
    refine h1.outside rfl (registered_congr (by rfl) (by rfl) (by rfl)) (numbered_congr h1.numbered rfl rfl rfl)
      ⟨h1.timed.armed, h1.timed.timer, h1.timed.next, h1.timed.named⟩ fun {d n} hd => ?_
    rcases hd with ⟨tag, hd⟩ | ⟨y, hy, hd⟩
    · simp only [Table.get?_insert] at hd
      split at hd
      · cases hd
        exact h.tagged (Or.inr ⟨_, List.mem_cons_self, rfl, rfl⟩)
      · exact h.tagged (Or.inl ⟨tag, hd⟩)
    · exact h.tagged (Or.inr ⟨y, List.mem_cons_of_mem _ hy, hd⟩)
  exact h2.cons (.of_plays rfl)

/-- A taker of user code is new on a channel, or gone. -/
theorem setTakers (h : Wired A ⟨F, w⟩) {c : ChannelId} {channel channel' : Channel Sink}
    (hc : w.channels.get? c = some channel)
    (hold : ∀ b ∈ channel'.takers, b ∈ channel.takers ∨
      b.id = channel.nextTaker ∧ (∀ r, b.sink ≠ .effect r))
    (hkept : ∀ b ∈ channel.takers, ∀ r, b.sink = .effect r → b ∈ channel'.takers)
    (hn : (channel'.takers.map (·.id)).Nodup) (hnext : ∀ b ∈ channel'.takers, b.id < channel'.nextTaker)
    (hle : channel.nextTaker ≤ channel'.nextTaker)
    (hcl : channel'.closed = true → channel'.takers = []) :
    Wired A ⟨F, { w with channels := w.channels.insert c channel' }⟩ := by
  have hget : ∀ {d ch}, (w.channels.insert c channel').get? d = some ch →
      d = c ∧ ch = channel' ∨ w.channels.get? d = some ch := by
    intro d ch hd
    rw [Table.get?_insert] at hd
    split at hd
    · rename_i hdc
      cases hd
      exact Or.inl ⟨hdc, rfl⟩
    · exact Or.inr hd
  have hnum := h.numbered
  have claims : ∀ {r t k}, World.Claims { w with channels := w.channels.insert c channel' } r t k →
      w.Claims r t k := fun hcw => hcw.of_middlewares rfl
  refine h.outside rfl ⟨fun hr => ?_, fun hr => ?_⟩
    ⟨hnum.bus, hnum.busNext, fun hm hcw => hnum.owner hm (claims hcw),
      fun hcw => hnum.onBus (claims hcw), fun hd => ?_, fun hd hm => ?_, fun hd hcl' => ?_,
      fun hcw hd => ?_, hnum.joiners, hnum.unsettled⟩
    ⟨h.timed.armed, h.timed.timer, h.timed.next, h.timed.named⟩ fun {d id} hd => ?_
  · cases hr with
    | bus ht he => exact .bus ht he
    | channel hd ht hs =>
      rcases hget hd with ⟨rfl, rfl⟩ | hd
      · rcases hold _ ht with ht | ⟨-, hne⟩
        · exact .channel hc ht hs
        · exact absurd hs (hne _)
      · exact .channel hd ht hs
    | call hd hl => exact .call hd hl
    | join hj => exact .join hj
  · cases hr with
    | bus ht he => exact .bus ht he
    | @channel d ch b hd ht hs =>
      by_cases hdc : d = c
      · subst hdc
        cases hc.symm.trans hd
        exact .channel (c := d) (by simp) (hkept b ht _ hs) hs
      · exact .channel (c := d) (by simp [hdc, hd]) ht hs
    | call hd hl => exact .call hd hl
    | join hj => exact .join hj
  · rcases hget hd with ⟨-, rfl⟩ | hd
    · exact hn
    · exact hnum.channel hd
  · rcases hget hd with ⟨-, rfl⟩ | hd
    · exact hnext _ hm
    · exact hnum.channelNext hd hm
  · rcases hget hd with ⟨-, rfl⟩ | hd
    · exact hcl hcl'
    · exact hnum.closed hd hcl'
  · rcases hget hd with ⟨rfl, rfl⟩ | hd
    · obtain ⟨hlt, hb⟩ := hnum.onChannel (claims hcw) hc
      refine ⟨Nat.lt_of_lt_of_le hlt hle, fun b hm hid => ?_⟩
      rcases hold b hm with hm | ⟨hid', -⟩
      · exact hb b hm hid
      · rw [← hid, hid'] at hlt
        exact absurd hlt (Nat.lt_irrefl _)
    · exact hnum.onChannel (claims hcw) hd
  · obtain ⟨ch, hd', hlt, hb⟩ := h.tagged (d := d) hd
    by_cases hdc : d = c
    · subst hdc
      cases hc.symm.trans hd'
      refine ⟨channel', by simp, Nat.lt_of_lt_of_le hlt hle, fun b hm hid => ?_⟩
      rcases hold b hm with hm | ⟨-, hne⟩
      · exact hb b hm hid
      · exact hne
    · exact ⟨ch, by simp [hdc, hd'], hlt, hb⟩

end Outside

/-! ## Operations -/

theorem opUntake (h : Wired A ⟨F, w⟩) (name : String) : Wired A ⟨F, (w.opUntake name).2⟩ := by
  unfold World.opUntake
  split
  · exact h
  · rename_i c id htag
    split
    · exact h
    · rename_i channel hc
      obtain ⟨channel', hc', -, hb⟩ := h.tagged (Or.inl ⟨name, htag⟩)
      cases hc.symm.trans hc'
      refine h.setTakers hc (fun b hm => Or.inl (List.mem_filter.1 hm).1) (fun b hm r hs => ?_)
        ((h.numbered.channel hc).sublist (List.filter_sublist.map _))
        (fun b hm => ?_) (Nat.le_refl _) (fun hcl => ?_)
      · refine List.mem_filter.2 ⟨hm, ?_⟩
        simp only [decide_eq_true_eq]
        intro hid
        exact hb b hm hid r hs
      · have hm' : b ∈ channel.takers := (List.mem_filter.1 hm).1
        have hlt : b.id < channel.nextTaker := h.numbered.channelNext hc hm'
        exact hlt
      · have hnil : channel.takers = [] := h.numbered.closed hc hcl
        simp [Channel.cancelTaker, hnil]

theorem opTake (h : Wired A ⟨F, w⟩) (site : Site) (env : Env) {c : ChannelId}
    {channel : Channel Sink} (hc : w.channels.get? c = some channel) (p : Pattern) (name : String)
    (next : List Op) : Wired A ((w.opTake site env c channel p name next).followedBy F) := by
  have hch := World.channels_enterNotes w (channel.takeNotes p)
  have hc' : (w.enterNotes (channel.takeNotes p)).channels.get? c = some channel := by rw [hch, hc]
  have h1 := h.calm (.enterNotes (channel.takeNotes p))
  unfold World.opTake
  simp only [World.takeChannel]
  rcases channel.take_cases p (.script name next env) with ⟨d, channel', hr, hl, hnext⟩ | ⟨hcl, hr⟩
  · rw [hr]
    have h2 : Wired A ⟨.registered site name c channel.nextTaker :: F, _⟩ :=
      (h1.calm (.setChannel hc' hl)).tag channel' (by simp)
        (by rw [hnext]; exact Nat.lt_succ_self _) fun b hm hid => by
          rw [hl.takers] at hm
          have hlt := h.numbered.channelNext hc hm
          rw [hid] at hlt
          exact absurd hlt (Nat.lt_irrefl _)
    refine h2.reframe (fun r _ => ?_) (fun y hy r hm => ?_) fun y hy d' id ht => ?_
    · simp [Instr.Settles]
    · rcases List.mem_cons.1 hy with rfl | hy
      · cases hm
      · exact ⟨y, hy, hm⟩
    · rcases List.mem_cons.1 hy with rfl | hy
      · cases ht
      · exact ⟨y, hy, ht⟩
  · rw [hr]
    refine Wired.tag ?_ { channel with
        nextTaker := channel.nextTaker + 1
        takers := channel.takers ++ [⟨channel.nextTaker, p, .script name next env⟩] } (by simp)
      (Nat.lt_succ_self _) fun b hm hid r hs => ?_
    · refine h1.setTakers hc' (fun b hm => ?_) (fun b hm r _ => List.mem_append_left _ hm)
        (nodup_map_concat (h.numbered.channel hc) fun b hm => h.numbered.channelNext hc hm)
        (fun b hm => ?_) (Nat.le_succ _) (fun hcl' => ?_)
      · refine (List.mem_append.1 hm).imp_right fun hm => ?_
        rw [List.mem_singleton.1 hm]
        exact ⟨rfl, fun r hs => by cases hs⟩
      · rcases List.mem_append.1 hm with hm | hm
        · exact Nat.lt_succ_of_lt (h.numbered.channelNext hc hm)
        · rw [List.mem_singleton.1 hm]
          exact Nat.lt_succ_self _
      · rw [show channel.closed = true from hcl'] at hcl
        cases hcl
    · rcases List.mem_append.1 hm with hm | hm
      · have hlt := h.numbered.channelNext hc hm
        rw [hid] at hlt
        exact absurd hlt (Nat.lt_irrefl _)
      · rw [List.mem_singleton.1 hm] at hs
        cases hs

theorem opPut (h : Wired A ⟨F, w⟩) (site : Site) {c : ChannelId} {channel : Channel Sink}
    (hc : w.channels.get? c = some channel) (v : Value) :
    Wired A ((w.opPut site c channel v).followedBy F) := by
  have h1 : ∀ r, Wired A ⟨.reply site "put" r :: F, w⟩ := fun r => h.cons (.of_plays rfl)
  unfold World.opPut
  simp only
  split
  · rename_i hp
    exact (h1 _).putChannel_kept hc fun t ht => by rw [hp] at ht; cases ht
  · rename_i t hp
    exact (h1 _).putChannel_delivered hc hp
  · rename_i result hp
    exact (h1 _).putChannel_kept hc fun t ht => by rw [hp] at ht; cases ht

theorem opClose (h : Wired A ⟨F, w⟩) (site : Site) {c : ChannelId} {channel : Channel Sink}
    (hc : w.channels.get? c = some channel) :
    Wired A ((w.opClose site c channel).followedBy F) := by
  have h1 : Wired A ⟨.reply site "close" .ok :: F, w⟩ := h.cons (.of_plays rfl)
  have h2 := h1.releaseChannel hc channel.close.1 channel.close.2 ?_ ?_ .ended
  · simpa only [World.opClose, Config.followedBy, List.append_assoc, List.singleton_append] using h2
  · unfold Channel.close
    split <;> simp
  · unfold Channel.close
    split
    · exact .refl channel
    · exact ⟨List.nil_sublist _, Nat.le_refl _, fun _ => Or.inr rfl⟩

/-- A deferred is settled that no running timer stands behind. -/
theorem settleDeferred (h : Wired A ⟨F, w⟩) {d : DeferredId}
    (htm : ∀ t ∈ w.timers, t.deferred ≠ d) (a : Answer) :
    Wired A ((w.settleDeferred d a).2.followedBy F) := by
  unfold World.settleDeferred
  split
  · exact h
  · rename_i deferred hd
    have h1 := h.releaseListener hd htm a (.ofAnswer a)
    simp only
    cases hl : (deferred.settle a).listener with
    | none =>
      rw [hl] at h1
      exact h1
    | some r =>
      rw [hl] at h1
      exact h1.notify

theorem opSettle (h : Wired A ⟨F, w⟩) (site : Site) (o : Op) (name : String) (a : Answer) :
    Wired A ((w.opSettle site o name a).followedBy F) := by
  unfold World.opSettle
  split
  · exact h.cons (.of_plays rfl)
  · rename_i d hn
    have h1 : Wired A ⟨.reply site o.name (.bool (w.settleDeferred d a).1) :: F, w⟩ :=
      h.cons (.of_plays rfl)
    -- a named deferred has no timer, and whatever a timer stands behind has one
    have htm : ∀ t ∈ w.timers, t.deferred ≠ d := by
      rintro t ht rfl
      obtain ⟨deferred, hd, h2, -⟩ := h.timed.armed ht
      obtain ⟨deferred', hd', h3⟩ := h.timed.named hn
      cases hd.symm.trans hd'
      rw [h2] at h3
      cases h3
    have h2 := h1.settleDeferred htm a
    simpa only [Config.followedBy, List.append_assoc, List.singleton_append] using h2

theorem execMoveClock (h : Wired A ⟨F, w⟩) (target : Nat) :
    Wired A ((w.execMoveClock target).followedBy F) := by
  unfold World.execMoveClock
  split
  · exact h.calm (.of_eq rfl rfl rfl rfl rfl rfl rfl rfl)
  · rename_i t ht
    have h1 : Wired A ⟨.moveClock target :: F,
        { w with now := t.deadline, timers := w.timers.filter fun u => u.id ≠ t.id }⟩ :=
      (h.filterTimers t.deadline fun u => u.id ≠ t.id).cons (.of_plays rfl)
    have h2 := h1.settleDeferred (d := t.deferred) (fun u hu hud => ?_) t.answer
    · simpa only [Config.followedBy, List.append_assoc, List.singleton_append] using h2
    · have hmem : t ∈ w.timers := World.mem_of_dueTimer? ht
      obtain ⟨hu, hne⟩ := List.mem_filter.1 hu
      obtain ⟨deferred, hd, hid, -⟩ := h.timed.armed hu
      obtain ⟨deferred', hd', hid', -⟩ := h.timed.armed hmem
      rw [hud] at hd
      cases hd.symm.trans hd'
      rw [hid, Option.some.injEq] at hid'
      simp [hid'] at hne

theorem opRun (h : Wired A ⟨F, w⟩) (hn : w.task? i (w.engine i).nextTask = none) (site : Site)
    (env : Env) (s : SagaExpr) (label : Option String) :
    Wired A ((w.opRun site env i s label).followedBy F) := by
  unfold World.opRun
  have h1 := (h.calm (.createTask (w.evalSaga env s) none false hn)).calm
    (.schedule (i := i) (x := .start (w.nextTaskRef i (w.evalSaga env s)).id)
      fun y signal hy => by cases hy)
  have h2 : Wired A ⟨.started site label (w.nextTaskRef i (w.evalSaga env s)) :: F, _⟩ :=
    h1.cons (.of_plays rfl)
  have h3 := h2.quiet (.enterDriver (.refl _) i [] rfl)
  simpa only [Config.followedBy, List.append_assoc, List.singleton_append] using h3

theorem opDispatch (h : Wired A ⟨F, w⟩) (site : Site) (a : Action) :
    Wired A ((w.opDispatch site i a).followedBy F) := by
  unfold World.opDispatch
  split
  · exact (h.calm (.queue rfl)).cons (.of_plays rfl)
  · have h1 : Wired A ⟨F, w.setEngine i fun e => { e with driving := true }⟩ :=
      h.calm (.setEngine' rfl rfl rfl Iff.rfl)
    exact h1.cons ⟨fun r hr => hr, fun r hr => hr, fun c id hr => hr⟩

theorem opFinish (h : Wired A ⟨F, w⟩) (hi : w.Has i) (site : Site) :
    Wired A ((w.opFinish site i).followedBy F) := by
  unfold World.opFinish
  split
  · exact (h.calm (.queue rfl)).cons (.of_plays rfl)
  · have h1 : Wired A ⟨.reply site "end" .ok :: F, w.endBus i⟩ := (h.endBus hi).cons (.of_plays rfl)
    have h2 := h1.quiet (.enterDriver (.refl _) i [] rfl)
    simpa only [Config.followedBy, List.append_assoc, List.singleton_append] using h2

theorem opCancel (h : Wired A ⟨F, w⟩) (site : Site) (t : TaskRef) :
    Wired A ((w.opCancel site t).followedBy F) := by
  have h1 : Wired A ⟨.reply site "cancel" .ok :: F, w⟩ := h.cons (.of_plays rfl)
  unfold World.opCancel
  split
  · exact h1
  · have h2 := h1.quiet (.enterDriver (.refl _) t.owner [.cancel t.owner t.id] rfl)
    simpa only [Config.followedBy, List.append_assoc, List.singleton_append] using h2

theorem opWatch (h : Wired A ⟨F, w⟩) (t : TaskRef) (name : String) :
    Wired A ⟨F, (w.opWatch t name).2⟩ := by
  unfold World.opWatch
  simp only
  split <;> exact h.calm (.of_eq rfl rfl rfl rfl rfl rfl rfl rfl)

/-- A middleware is dropped, with all that it kept. -/
theorem kill (h : Wired A ⟨F, w⟩) {m gone : Middleware} (hm : w.middlewares.get? i = some m)
    (hg : gone.alive = false) (he : gone.engine = { outcomes := m.engine.outcomes }) :
    Wired A ⟨F, { w with middlewares := w.middlewares.insert i gone }⟩ := by
  set w' := { w with middlewares := w.middlewares.insert i gone } with hw'
  have hei : w'.engine i = { outcomes := m.engine.outcomes } := by
    simp [World.engine, hw', he]
  have hej : ∀ {j}, j ≠ i → w'.engine j = w.engine j := fun hj => by
    simp [World.engine, hw', hj]
  have alive : ∀ {j}, w'.Alive j → j ≠ i ∧ w.Alive j := by
    intro j hj
    have hne : j ≠ i := by
      rintro rfl
      simp [World.Alive, World.alive?, hw', hg] at hj
    refine ⟨hne, ?_⟩
    simpa [World.Alive, World.alive?, hw', hne] using hj
  have claims : ∀ {r t k}, w'.Claims r t k → r.mw ≠ i ∧ w.Claims r t k := by
    intro r t k hc
    have hne : r.mw ≠ i := by
      rintro rfl
      obtain ⟨-, link, hx⟩ := hc
      simp only [World.wait?, hei] at hx
      cases hx
    exact ⟨hne, (World.claims_congr (by simp only [World.wait?, hej hne])).1 hc⟩
  have claims' : ∀ {r t k}, r.mw ≠ i → w.Claims r t k → w'.Claims r t k := fun hne hc =>
    (World.claims_congr (by simp only [World.wait?, hej hne])).2 hc
  have hreg : ∀ {r k}, r.mw ≠ i → (w'.Registered r k ↔ w.Registered r k) := by
    intro r k hne
    constructor
    · rintro (⟨ht, hx⟩ | ⟨hc, ht, hs⟩ | ⟨hd, hl⟩ | hj)
      · exact .bus (hej hne ▸ ht) hx
      · exact .channel hc ht hs
      · exact .call hd hl
      · exact .join (by simpa only [World.joiners, World.task?, hej hne] using hj)
    · rintro (⟨ht, hx⟩ | ⟨hc, ht, hs⟩ | ⟨hd, hl⟩ | hj)
      · exact .bus (by rwa [hej hne]) hx
      · exact .channel hc ht hs
      · exact .call hd hl
      · exact .join (by simpa only [World.joiners, World.task?, hej hne] using hj)
  have takers : ∀ {j t}, t ∈ (w'.engine j).bus.takers → j ≠ i ∧ t ∈ (w.engine j).bus.takers := by
    intro j t ht
    have hne : j ≠ i := by
      rintro rfl
      rw [hei] at ht
      cases ht
    exact ⟨hne, hej hne ▸ ht⟩
  have hn := h.numbered
  refine ⟨⟨fun j => ?_, fun ht => ?_, fun ht hc => ?_, fun hc => ?_, hn.channel, hn.channelNext,
      hn.closed, fun hc => hn.onChannel (claims hc).2, fun j t => ?_, hn.unsettled⟩,
    ⟨h.timed.armed, h.timed.timer, h.timed.next, h.timed.named⟩, fun hd => h.tagged hd,
    fun hA r s t u d h1 h2 => h.sole hA (claims h1).2 (claims h2).2, fun {r} ha => ?_⟩
  · by_cases hj : j = i
    · rw [hj, hei]
      exact List.nodup_nil
    · rw [hej hj]
      exact hn.bus j
  · obtain ⟨hne, ht⟩ := takers ht
    rw [hej hne]
    exact hn.busNext ht
  · exact hn.owner (takers ht).2 (claims hc).2
  · obtain ⟨hne, hc⟩ := claims hc
    rw [hej hne]
    exact hn.onBus hc
  · by_cases hj : j = i
    · simp only [World.joiners, World.task?, hj, hei]
      exact .nil
    · simp only [World.joiners, World.task?, hej hj]
      exact hn.joiners j t
  · obtain ⟨hne, ha⟩ := alive ha
    have hf := h.fits ha
    have ho : Owes ⟨F, w'⟩ r ↔ Owes ⟨F, w⟩ r := by simp only [Owes, hej hne]
    refine ⟨fun hr => ?_, fun hr => ?_, fun hmk => ?_, fun hA hc => ?_⟩
    · obtain ⟨t, hc⟩ := hf.backed ((hreg hne).1 hr)
      exact ⟨t, claims' hne hc⟩
    · rw [ho]
      exact hf.silent ((hreg hne).1 hr)
    · rw [ho]
      obtain ⟨h1, h2⟩ := hf.making hmk
      exact ⟨fun t k hc => h1 t k (claims hc).2, h2⟩
    · rw [ho, hreg hne]
      exact hf.served hA (claims hc).2

theorem opDrop (h : Wired A ⟨F, w⟩) (site : Site) :
    Wired A ((w.opDrop site i).followedBy F) := by
  unfold World.opDrop
  split
  · rename_i m hm
    refine Wired.mute (h.kill (Option.filter_eq_some_iff.1 hm).1 rfl rfl) fun y hy => ?_
    rcases List.mem_append.1 hy with hy | hy
    · obtain ⟨e, -, hy⟩ := List.mem_flatMap.1 hy
      obtain ⟨b, -, rfl⟩ := Option.map_eq_some_iff.1 (Option.mem_toList.1 hy)
      exact .of_plays rfl
    · rw [List.mem_singleton.1 hy]
      exact .of_plays rfl
  · exact h.cons (.of_plays rfl)
  · exact h.cons (.of_plays rfl)

theorem opAdvance (h : Wired A ⟨F, w⟩) (site : Site) (ms : Nat) :
    Wired A ((w.opAdvance site ms).followedBy F) := by
  unfold World.opAdvance
  split <;> exact h.quiet (.of_calm (.refl _) rfl)

theorem withMiddleware (h : Wired A ⟨F, w⟩) (site : Site) (o : Op) {f : Middleware → Config}
    (hf : ∀ m, w.Alive i → Wired A ((f m).followedBy F)) :
    Wired A ((w.withMiddleware site o i f).followedBy F) := by
  unfold World.withMiddleware
  split
  · exact h.cons (.of_plays rfl)
  · rename_i m hm
    exact hf m (World.Bears.alive_of_living hm)

theorem withTask (h : Wired A ⟨F, w⟩) (site : Site) (env : Env) (o : Op) (e : Expr)
    {f : TaskRef → Config} (hf : ∀ t, Wired A ((f t).followedBy F)) :
    Wired A ((w.withTask site env o e f).followedBy F) := by
  unfold World.withTask
  split
  · exact hf _
  · exact h.cons (.of_plays rfl)

theorem withChannel (h : Wired A ⟨F, w⟩) (site : Site) (o : Op) (name : String)
    {f : ChannelId → Channel Sink → Config}
    (hf : ∀ c channel, w.channels.get? c = some channel → Wired A ((f c channel).followedBy F)) :
    Wired A ((w.withChannel site o name f).followedBy F) := by
  unfold World.withChannel
  split
  · exact h.cons (.of_plays rfl)
  · split
    · exact h.cons (.of_plays rfl)
    · exact hf _ _ ‹_›

/-- Whatever user code or a scenario does, everything fits together afterwards. -/
theorem runOp (h : Wired A ⟨F, w⟩) (hn : ∀ i, w.Alive i → w.task? i (w.engine i).nextTask = none)
    (site : Site) (env : Env) (o : Op) : Wired A ((w.runOp site env o).followedBy F) := by
  have h1 : ∀ {y : Instr}, y.plays = false → Wired A ⟨y :: F, w⟩ := fun hy => h.cons (.of_plays hy)
  cases o with
  | run j s label => exact h.withMiddleware site _ fun m ha => h.opRun (hn j ha) site env s label
  | dispatch j a => exact h.withMiddleware site _ fun m ha => h.opDispatch site _
  | finish j => exact h.withMiddleware site _ fun m ha => h.opFinish ha.has site
  | live j => exact h.withMiddleware site _ fun m ha => h1 rfl
  | state j => exact h.withMiddleware site _ fun m ha => (h.calm .readState).cons (.of_plays rfl)
  | settings j => exact h.withMiddleware site _ fun m ha => h1 rfl
  | cancel e => exact h.withTask site env _ e fun t => h.opCancel site t
  | inspect e => exact h.withTask site env _ e fun t => h1 rfl
  | sameTask a b => exact h1 rfl
  | watch e tag => exact h.withTask site env _ e fun t => (h.opWatch t tag).cons (.of_plays rfl)
  | wakes tag => exact h1 rfl
  | put name e => exact h.withChannel site _ name fun c channel hc => h.opPut site hc _
  | take name p tag next =>
    exact h.withChannel site _ name fun c channel hc => h.opTake site env hc p tag next
  | untake tag => exact (h.opUntake tag).cons (.of_plays rfl)
  | close name => exact h.withChannel site _ name fun c channel hc => h.opClose site hc
  | sameChannel a b => exact h1 rfl
  | showChannel name => exact h.withChannel site _ name fun c channel hc => h1 rfl
  | resolve name e => exact h.opSettle site _ name _
  | reject name f => exact h.opSettle site _ name _
  | showDeferred name =>
    simp only [World.runOp]
    split <;> exact h1 rfl
  | log tag e => exact (h.calm (.enter _)).cons (.of_plays rfl)
  | drop j => exact h.opDrop site
  | advance ms => exact h.opAdvance site ms
  | unknown name => exact h1 rfl

end Config.Wired

end SagaMachine

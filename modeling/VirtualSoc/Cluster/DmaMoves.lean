import VirtualSoc.Cluster.DmaJobs

/-!
# What the jobs of the programs move (support/simulator/dmasupport.c, cluster/cl_dma.cpp)

Between the two phases of a transfer the cores go on, and the memory may be written. `dma_moves`: the bytes that are
stored are those that were at the source when the job was fetched.
-/

namespace VirtualSoc.Dma.Driver

variable {N : Nat} {s t : State N} {a : Act N} {c core : Fin N} {j job : Slot} {φ : Fin N → Slot → Phase} {args : Args}

/-- The memory when the current job was fetched. -/
def fetchedFrom (s : State N) (a : Act N) (mem : MemClass) : MemClass :=
  match a with
  | .source => s.engine.port.mem
  | _ => mem

/-- The source in the one memory is at the target, and the rest of the other is as it was. -/
structure Moved (job : Job) (source before after : MemClass) : Prop where
  target : ∀ k < job.size.toNat, after.bytes (job.targetAddr + k) = source.bytes (job.sourceAddr + k)
  rest : ∀ a, a < job.targetAddr ∨ job.targetAddr + job.size.toNat ≤ a → after.bytes a = before.bytes a

/-- The engine does not fail, and what it stores is what it fetched. -/
def Moves (x : State N × MemClass) : Act N → Prop
  | .source => x.1.table.workingSig = true → x.1.storing = false → ∃ t, step x.1 .source = some t
  | .target => x.1.storing = true →
    ∃ t, step x.1 .target = some t ∧ Moved x.1.table.currentJob x.2 x.1.engine.port.mem t.engine.port.mem
  | _ => True

/-- The words of the source are in the buffer. -/
structure Fetched (mem : MemClass) (job : Job) (e : Engine) : Prop where
  idle : Idle e
  rw : e.pinoutMst.rw = false
  buffer : ∀ k < job.sizeW, e.ioData k = mem.word (job.sourceAddr + 4 * k)

/-- The job fits in a memory of this size. -/
theorem fits_congr {mem mem' : MemClass} {v : Job} (hsize : mem'.size = mem.size) (hf : Fits mem v) : Fits mem' v :=
  ⟨hf.words, hf.max, hf.sourceAligned, hf.targetAligned, hsize ▸ hf.sourceIn, hsize ▸ hf.targetIn, hsize ▸ hf.addresses⟩

theorem source_fetched {e : Engine} {v : Job} (hidle : Idle e) (hf : Fits e.port.mem v) :
    ∃ e', source v e = some e' ∧ Fetched e.port.mem v e' ∧ e'.port.mem = e.port.mem := by
  obtain ⟨e', he', h⟩ := source_fetches hidle hf
  exact ⟨e', he', ⟨⟨h.beats, h.bw⟩, h.rw, h.buffer⟩, h.memory⟩

/-- The memory may be another one than the words were fetched from. -/
theorem target_moved {mem : MemClass} {e : Engine} {v : Job} (h : Fetched mem v e) (hf : Fits e.port.mem v) :
    ∃ e', target v e = some e' ∧ Idle e' ∧ Moved v mem e.port.mem e'.port.mem ∧
      e'.port.mem.size = e.port.mem.size := by
  have hnone : Fetching e.port.mem v.sourceAddr 0 0 e :=
    ⟨rfl, h.idle.beats, h.idle.bw, h.rw, fun k hk => absurd hk (Nat.not_lt_zero k), fun hne => absurd rfl hne⟩
  obtain ⟨e', he', h'⟩ := target_stores hnone hf
  refine ⟨e', he', ⟨h'.beats, h'.bw⟩, ⟨fun k hk => ?_, fun a ha => ?_⟩, by rw [h'.memory, MemClass.stored_size]⟩
  · rw [hf.size_eq] at hk
    rw [h'.memory, MemClass.stored_bytes, if_pos (by omega), Nat.add_sub_cancel_left, h.buffer _ (by omega),
      MemClass.word_byte mem _ (Nat.mod_lt _ (by decide))]
    congr 1
    omega
  · rw [h'.memory, MemClass.stored_bytes, if_neg (by rw [← hf.size_eq]; omega)]

/-! ## The jobs fit -/

def Phase.FitsIn (mem : MemClass) : Phase → Prop
  | .programmed v | .queued v | .fetched v => Fits mem v
  | _ => True

def Pc.FitsIn (mem : MemClass) (core : Nat) : Pc → Prop
  | .addr1 _ args | .addr2 _ args | .mode _ args => Fits mem (args.entry core)
  | _ => True

/-- The arguments of a call are whole aligned words in the memory. -/
def ArgsFit (mem : MemClass) : Act N → Prop
  | .prog core args => Fits mem (args.entry core)
  | _ => True

instance (mem : MemClass) : ∀ a : Act N, Decidable (ArgsFit mem a)
  | .prog core args => inferInstanceAs (Decidable (Fits mem (args.entry core)))
  | .start _ _ | .wait _ _ | .go _ | .schedule | .source | .target | .memory _ => isTrue trivial

variable {mem : MemClass} {e : Event} {ph ph' : Phase}

theorem life_fits (h : life ph e = some ph') (hfit : ph.FitsIn mem) (hprog : ∀ v, e = .prog v → Fits mem v) :
    ph'.FitsIn mem := by
  unfold life at h
  split at h
  · obtain rfl := Option.some.inj h
    split <;> exact hprog _ rfl
  · obtain rfl := Option.some.inj h
    exact ⟨hfit.words, hfit.max, hfit.sourceAligned, hfit.targetAligned, hfit.sourceIn, hfit.targetIn, hfit.addresses⟩
  · split at h
    · obtain rfl := Option.some.inj h
      exact hfit
    · cases h
  · split at h
    · obtain rfl := Option.some.inj h
      split <;> trivial
    · cases h
  · obtain rfl := Option.some.inj h
    trivial
  · cases h

/-- Only a fetch makes a job fetched. -/
theorem life_fetched {v : Job} (h : life ph e = some (.fetched v)) : e = .fetch v := by
  unfold life at h
  split at h
  · have := Option.some.inj h
    split at this <;> cases this
  · cases h
  · split at h
    · rename_i heq
      cases h
      rw [heq]
    · cases h
  · split at h
    · have := Option.some.inj h
      split at this <;> cases this
    · cases h
  · cases h
  · cases h

theorem events_prog {v : Job} (h : Event.prog v ∈ events c j s a) (hpc : ∀ c, (s.pc c).FitsIn mem c) : Fits mem v := by
  unfold events at h
  split at h
  · split at h <;> simp at h
  · rename_i core
    have hfit := hpc core
    split at h
    · rename_i hmode
      rw [hmode] at hfit
      split at h
      · obtain rfl : v = _ := by simpa using h
        exact hfit
      · cases h
    · split at h <;> simp at h
    · split at h <;> simp at h
    · cases h
  · split at h <;> simp at h
  · split at h <;> simp at h
  · cases h

theorem events_fetch {v : Job} (h : Event.fetch v ∈ events c j s a) : a = .source ∧ v = s.table.currentJob := by
  unfold events at h
  split at h
  · split at h <;> simp at h
  · split at h
    · split at h <;> simp at h
    · split at h <;> simp at h
    · split at h <;> simp at h
    · cases h
  · split at h
    · exact ⟨rfl, by simpa using h⟩
    · cases h
  · split at h <;> simp at h
  · cases h

theorem run_fits {es : List Event} (hr : Trans.run life ph es = some ph') (hfit : ph.FitsIn mem)
    (hprog : ∀ v, Event.prog v ∈ es → Fits mem v) : ph'.FitsIn mem :=
  Trans.run_inv_along (fun ph => ph.FitsIn mem) (fun _ _ _ hph hC hs => life_fits hs hph hC) hfit
    (Trans.along_of_forall (P := fun e : Event => ∀ v, e = .prog v → Fits mem v) (fun _ he v hv => hprog v (hv ▸ he)) ph) hr

/-- A slot whose job is fetched had it fetched before, or has it fetched now. -/
theorem run_fetched {es : List Event} {v : Job} (hr : Trans.run life ph es = some (.fetched v)) :
    ph = .fetched v ∨ Event.fetch v ∈ es := by
  induction es generalizing ph with
  | nil =>
    cases hr
    exact Or.inl rfl
  | cons e es ih =>
    obtain ⟨ph', hph', hr⟩ := Trans.run_cons.1 hr
    rcases ih hr with rfl | hmem
    · rw [life_fetched hph']
      exact Or.inr List.mem_cons_self
    · exact Or.inr (List.mem_cons_of_mem e hmem)

/-- The steps of the cores leave the engine alone, and a core takes the arguments of its call along. -/
structure Calls (mem : MemClass) (s t : State N) : Prop where
  engine : t.engine = s.engine
  storing : t.storing = s.storing
  pcs : ∀ c, (t.pc c).FitsIn mem c

theorem Calls.goto {p : Pc} (hengine : t.engine = s.engine) (hstoring : t.storing = s.storing)
    (hpc : t.pc = Function.update s.pc core p) (hfit : ∀ c, (s.pc c).FitsIn mem c) (hp : p.FitsIn mem core) :
    Calls mem s t := by
  refine ⟨hengine, hstoring, fun c => ?_⟩
  rw [hpc]
  by_cases hc : c = core
  · subst hc
    rwa [Function.update_self]
  · rw [Function.update_of_ne hc]
    exact hfit c

theorem progStep_calls (hs : progStep s core args = some t) (hfit : ∀ c, (s.pc c).FitsIn mem c)
    (hargs : Fits mem (args.entry core)) : Calls mem s t := by
  obtain ⟨-, rfl⟩ := progStep_cases hs
  cases look4FreeSlot s.table core with
  | none => exact ⟨rfl, rfl, hfit⟩
  | some job => exact .goto rfl rfl rfl hfit hargs

theorem startStep_calls (hs : startStep s core job = some t) (hfit : ∀ c, (s.pc c).FitsIn mem c) : Calls mem s t := by
  unfold startStep at hs
  split at hs
  · simp only [State.access, triggered_jobId, request_trigger, Option.map_some, Option.bind_eq_bind, Option.bind_some,
      Option.some.injEq] at hs
    rw [← hs]
    exact ⟨rfl, rfl, hfit⟩
  · cases hs

theorem goStep_calls (hs : goStep s core = some t) (hfit : ∀ c, (s.pc c).FitsIn mem c) : Calls mem s t := by
  have hcore := hfit core
  unfold goStep at hs
  split at hs
  · cases hs
  · rename_i hpc
    simp only [State.access, Option.bind_eq_bind, Option.bind_eq_some_iff, Option.map_eq_some_iff, Option.some.injEq] at hs
    obtain ⟨_, ⟨r, -, rfl⟩, rfl⟩ := hs
    rw [hpc] at hcore
    exact .goto rfl rfl rfl hfit hcore
  · rename_i hpc
    simp only [State.access, Option.bind_eq_bind, Option.bind_eq_some_iff, Option.map_eq_some_iff, Option.some.injEq] at hs
    obtain ⟨_, ⟨r, -, rfl⟩, rfl⟩ := hs
    rw [hpc] at hcore
    exact .goto rfl rfl rfl hfit hcore
  · simp only [State.access, Option.bind_eq_bind, Option.bind_eq_some_iff, Option.map_eq_some_iff, Option.some.injEq] at hs
    obtain ⟨_, ⟨r, -, rfl⟩, rfl⟩ := hs
    exact .goto rfl rfl rfl hfit trivial
  · simp only [State.access, Option.bind_eq_bind, Option.bind_eq_some_iff, Option.map_eq_some_iff, Option.some.injEq] at hs
    obtain ⟨_, ⟨r, -, rfl⟩, rfl⟩ := hs
    split
    · exact ⟨rfl, rfl, hfit⟩
    · exact .goto rfl rfl rfl hfit trivial
  · rw [Option.ite_none_right_eq_some] at hs
    obtain ⟨-, hs⟩ := hs
    cases hs
    exact .goto rfl rfl rfl hfit trivial
  · simp only [State.access, Option.bind_eq_bind, Option.bind_eq_some_iff, Option.map_eq_some_iff, Option.some.injEq] at hs
    obtain ⟨_, ⟨r, -, rfl⟩, rfl⟩ := hs
    split
    · exact .goto rfl rfl rfl hfit trivial
    · exact .goto rfl rfl rfl hfit trivial

theorem waitStep_calls (hs : waitStep s core job = some t) (hfit : ∀ c, (s.pc c).FitsIn mem c) : Calls mem s t := by
  unfold waitStep at hs
  split at hs
  · cases hs
    refine .goto rfl rfl rfl hfit ?_
    split <;> trivial
  · cases hs

/-- The jobs fit, and the buffer has what the current job fetched. -/
structure Feeds (mem : MemClass) (x : State N × MemClass) (φ : Fin N → Slot → Phase) : Prop where
  jobs : Jobs x.1 φ
  phases : ∀ c j, (φ c j).FitsIn mem
  pcs : ∀ c, (x.1.pc c).FitsIn mem c
  size : x.1.engine.port.mem.size = mem.size
  idle : x.1.storing = false → Idle x.1.engine
  fetched : ∀ c j v, φ c j = .fetched v → Fetched x.2 v x.1.engine

variable {x y : State N × MemClass}

theorem init_feeds [NeZero N] (mem : MemClass) (io : Nat → UInt32) :
    Feeds mem ((init mem io : State N), mem) fun _ _ => .free where
  jobs := init_jobs mem io
  phases _ _ := trivial
  pcs _ := trivial
  size := rfl
  idle _ := ⟨rfl, rfl⟩
  fetched _ _ _ h := nomatch h

namespace Feeds

/-- The job of the engine fits. -/
theorem current (h : Feeds mem x φ) (hwork : x.1.table.workingSig = true) : Fits x.1.engine.port.mem x.1.table.currentJob := by
  have hfit := h.phases x.1.table.currCore x.1.table.currSlot
  obtain ⟨hph, -⟩ := h.jobs.currentJob hwork
  rw [hph] at hfit
  refine fits_congr h.size ?_
  split at hfit <;> exact hfit

theorem source_runs (h : Feeds mem x φ) (hwork : x.1.table.workingSig = true) (hidle : x.1.storing = false) :
    ∃ e, source x.1.table.currentJob x.1.engine = some e ∧ Fetched x.1.engine.port.mem x.1.table.currentJob e ∧
      e.port.mem = x.1.engine.port.mem :=
  source_fetched (h.idle hidle) (h.current hwork)

theorem target_runs (h : Feeds mem x φ) (hst : x.1.storing = true) :
    ∃ e, target x.1.table.currentJob x.1.engine = some e ∧ Idle e ∧
      Moved x.1.table.currentJob x.2 x.1.engine.port.mem e.port.mem ∧ e.port.mem.size = x.1.engine.port.mem.size := by
  have hwork := h.jobs.storing hst
  obtain ⟨hph, -⟩ := h.jobs.currentJob hwork
  rw [hst, if_pos rfl] at hph
  exact target_moved (h.fetched _ _ _ hph) (h.current hwork)

theorem moves (h : Feeds mem x φ) (a : Act N) : Moves x a := by
  cases a with
  | source =>
    intro hwork hidle
    obtain ⟨e, he, -⟩ := h.source_runs hwork hidle
    exact ⟨_, by rw [step, hwork, hidle, if_pos (by rfl), he]; rfl⟩
  | target =>
    intro hst
    obtain ⟨e, he, -, hmoved, -⟩ := h.target_runs hst
    exact ⟨_, by rw [step, if_pos hst, he]; rfl, hmoved⟩
  | _ => trivial

/-- What a step that is not of the engine keeps. -/
theorem of_calls (h : Feeds mem x φ) {ψ : Fin N → Slot → Phase} (hjobs : Jobs t ψ) (hphases : ∀ c j, (ψ c j).FitsIn mem)
    (hfetched : ∀ c j v, ψ c j = .fetched v → φ c j = .fetched v) (hcalls : Calls mem x.1 t) : Feeds mem (t, x.2) ψ where
  jobs := hjobs
  phases := hphases
  pcs := hcalls.pcs
  size := by
    change t.engine.port.mem.size = mem.size
    rw [hcalls.engine]
    exact h.size
  idle hidle := by
    change Idle t.engine
    rw [hcalls.engine]
    exact h.idle (hcalls.storing ▸ hidle)
  fetched c j v hv := by
    change Fetched x.2 v t.engine
    rw [hcalls.engine]
    exact h.fetched c j v (hfetched c j v hv)

theorem next (hN : N ≤ 255) (h : Feeds mem x φ) (hargs : ArgsFit mem a) (hplain : a.Plain)
    (hs : Trans.withHistory step fetchedFrom x a = some y) : ∃ ψ, Feeds mem y ψ := by
  obtain ⟨hs, hy⟩ := Trans.withHistory_some.1 hs
  obtain ⟨t, mem'⟩ := y
  obtain ⟨ψ, hψ, hjobs⟩ := step_jobs hN h.jobs hplain hs
  have hphases : ∀ c j, (ψ c j).FitsIn mem := fun c j =>
    run_fits (hψ c j) (h.phases c j) fun v hv => events_prog hv h.pcs
  have hfetched : ∀ c j v, ψ c j = .fetched v → φ c j = .fetched v ∨ a = .source ∧ v = x.1.table.currentJob := by
    intro c j v hv
    have hr := hψ c j
    rw [hv] at hr
    exact (run_fetched hr).imp_right events_fetch
  have hquiet : a ≠ .source → ∀ c j v, ψ c j = .fetched v → φ c j = .fetched v := fun hne c j v hv =>
    (hfetched c j v hv).resolve_right fun h => hne h.1
  refine ⟨ψ, ?_⟩
  obtain rfl : mem' = fetchedFrom x.1 a x.2 := hy
  cases a with
  | prog core args => exact h.of_calls hjobs hphases (hquiet (by simp)) (progStep_calls hs h.pcs hargs)
  | start core job => exact h.of_calls hjobs hphases (hquiet (by simp)) (startStep_calls hs h.pcs)
  | wait core job => exact h.of_calls hjobs hphases (hquiet (by simp)) (waitStep_calls hs h.pcs)
  | go core => exact h.of_calls hjobs hphases (hquiet (by simp)) (goStep_calls hs h.pcs)
  | schedule =>
    obtain rfl := Option.some.inj hs
    exact h.of_calls hjobs hphases (hquiet (by simp)) ⟨rfl, rfl, h.pcs⟩
  | source =>
    simp only [step] at hs
    split at hs
    · rename_i hguard
      rw [Bool.and_eq_true, Bool.not_eq_true'] at hguard
      obtain ⟨e, he, hfetch, hmem⟩ := h.source_runs hguard.1 hguard.2
      rw [he] at hs
      obtain rfl := Option.some.inj hs
      refine ⟨hjobs, hphases, h.pcs, (congrArg MemClass.size hmem).trans h.size, fun hidle => (by cases hidle), fun c j v hv => ?_⟩
      rcases hfetched c j v hv with hold | ⟨-, rfl⟩
      · have := (h.jobs.fetched c j v hold).1
        rw [hguard.2] at this
        cases this
      · exact hfetch
    · cases hs
  | target =>
    simp only [step] at hs
    split at hs
    · rename_i hst
      obtain ⟨e, he, hidle, -, hsize⟩ := h.target_runs hst
      rw [he] at hs
      obtain rfl := Option.some.inj hs
      exact ⟨hjobs, hphases, h.pcs, hsize.trans h.size, fun _ => hidle, fun c j v hv => absurd (hjobs.fetched c j v hv).1 (by simp)⟩
    · cases hs
  | memory mem' =>
    simp only [step] at hs
    split at hs
    · rename_i hsize
      obtain rfl := Option.some.inj hs
      refine ⟨hjobs, hphases, h.pcs, hsize.trans h.size, fun hidle => ?_, fun c j v hv => ?_⟩
      · exact ⟨(h.idle hidle).beats, (h.idle hidle).bw⟩
      · have hold := h.fetched c j v (hquiet (by simp) c j v hv)
        exact ⟨⟨hold.idle.beats, hold.idle.bw⟩, hold.rw, hold.buffer⟩
    · cases hs

end Feeds

/-- **What the jobs move**: if nobody asks for sleep mode, and the arguments of the calls are whole aligned words of the
memory, the engine never fails, and what it stores at the target of the current job are the bytes that were at its
source when it was fetched, and no other byte, whatever the programs, the scheduler and the memory did in the
meantime. -/
theorem dma_moves [NeZero N] (hN : N ≤ 255) {io : Nat → UInt32} {as : List (Act N)} (has : ∀ a ∈ as, a.Plain)
    (hfit : ∀ a ∈ as, ArgsFit mem a) :
    Trans.Along (Trans.withHistory step fetchedFrom) Moves ((init mem io : State N), mem) as :=
  (Trans.along_of_forall (P := fun a => ArgsFit mem a ∧ a.Plain) (fun a ha => ⟨hfit a ha, has a ha⟩) _).of_inv
    (fun x => ∃ φ, Feeds mem x φ) ⟨_, init_feeds mem io⟩
    (fun _ _ _ ⟨_, h⟩ hargs hs => h.next hN hargs.1 hargs.2 hs) fun _ a ⟨_, h⟩ _ => h.moves a

theorem dma_moves_twoPrograms :
    Trans.Along (Trans.withHistory step fetchedFrom) Moves (twoInit, MemClass.new 0x08080000) twoPrograms := by
  have hfit : ∀ a ∈ twoPrograms, ArgsFit (MemClass.new 0x08080000) a := by decide +kernel
  exact @dma_moves 2 _ twoCores (by decide) _ _ twoPrograms_plain hfit

end VirtualSoc.Dma.Driver

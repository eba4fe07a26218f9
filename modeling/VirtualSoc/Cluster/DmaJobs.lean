import VirtualSoc.Cluster.DmaDriver

/-!
# The jobs of the programs (support/simulator/dmasupport.c, cluster/cl_dma.cpp)

In runs in which the calls of `dma_prog` are plain,

* `dma_jobs`: what is seen of each slot of the table is a sequence of lives, one after the other: `dma_prog` returns the job, it
  is started, fetched and stored once with the arguments of the call, and `dma_wait` returns;
* `dma_slots`: `dma_prog` fails if and only if no slot of the core is between two lives.
-/

namespace VirtualSoc.Dma.Driver

variable {N : Nat} {s t : State N} {a : Act N} {c core : Fin N} {j job : Slot} {φ : Fin N → Slot → Phase} {args : Args}

/-! ## What a step does to the slots -/

theorem setCell_id {α : Type} (f : Fin N → Slot → α) : setCell f c j (f c j) = f := by
  funext d k
  unfold setCell
  split
  · rename_i h
    rw [h.1, h.2]
  · rfl

/-- A phase in which the slot is not the engine's. -/
def Phase.Quiet (ph : Phase) : Prop := ∀ job, ph ≠ .queued job ∧ ph ≠ .fetched job

theorem Pc.entry_of_ne {p : Pc} (hp : p.Programs job) {k : Slot} (hk : k ≠ job) (core : Nat) : p.entry core k = {} := by
  cases p with
  | user | poll | asleep | collect => exact hp.elim
  | addr1 => rfl
  | addr2 job' args | mode job' args =>
    obtain rfl : job' = job := hp
    exact if_neg hk.symm

namespace Jobs

theorem not_current (h : Jobs s φ) (hq : (φ c j).Quiet) (hwork : s.table.workingSig = true) :
    ¬ (s.table.currCore = c ∧ s.table.currSlot = j) := by
  rintro ⟨rfl, rfl⟩
  obtain ⟨job, hjob⟩ := h.working hwork
  split at hjob
  · exact (hq job).2 hjob
  · exact (hq job).1 hjob

theorem plain_update (h : Jobs s φ) {p : Pc} (hp : p.Plain) (d : Fin N) : (Function.update s.pc c p d).Plain := by
  by_cases hd : d = c
  · subst hd
    rwa [Function.update_self]
  · rw [Function.update_of_ne hd]
    exact h.plain d

/-- **An access of a core to a slot of its own**: the slot and the core come to another phase and place. -/
theorem put (h : Jobs s φ) (c : Fin N) (j : Slot) (ph : Phase) (p : Pc) (hd : Held) (hq : (φ c j).Quiet) (hph : ∀ job, ph ≠ .fetched job)
    (hok : ph.Ok c) (hheld : hd.Of ph) (hentry : ∀ k, k ≠ j → p.entry c k = (s.pc c).entry c k)
    (hprog : ∀ k, p.Programs k → k = j ∧ s.table.jobCurrProg c = some j ∧ ph = .free)
    (hpoll : ∀ k, p ≠ .poll k) (hplain : p.Plain) {v : Job} (hv : v = ph.entry p c j) :
    Jobs { s with
      table := s.table.setJob c j v, pc := Function.update s.pc c p, held := setCell s.held c j hd }
      (setCell φ c j ph) := by
  have hcur : s.table.workingSig = true →
      setCell φ c j ph s.table.currCore s.table.currSlot = φ s.table.currCore s.table.currSlot :=
    fun hwork => setCell_of_ne (h.not_current hq hwork)
  constructor
  case table =>
    intro d k
    simp only [jt_setJob]
    by_cases hdk : d = c ∧ k = j
    · obtain ⟨rfl, rfl⟩ := hdk
      rw [setCell_self, setCell_self, Function.update_self, hv]
    · rw [setCell_of_ne hdk, setCell_of_ne hdk, h.table d k]
      by_cases hd : d = c
      · subst hd
        rw [Function.update_self]
        have hk := hentry k fun hk => hdk ⟨rfl, hk⟩
        unfold Phase.entry
        split
        · exact hk.symm
        all_goals rfl
      · rw [Function.update_of_ne hd]
  case ok =>
    intro d k
    by_cases hdk : d = c ∧ k = j
    · obtain ⟨rfl, rfl⟩ := hdk
      rwa [setCell_self]
    · rw [setCell_of_ne hdk]
      exact h.ok d k
  case held =>
    intro d k
    by_cases hdk : d = c ∧ k = j
    · obtain ⟨rfl, rfl⟩ := hdk
      simpa only [setCell_self] using hheld
    · simpa only [setCell_of_ne hdk] using h.held d k
  case prog =>
    intro d k hp
    by_cases hd : d = c
    · subst hd
      simp only [Function.update_self] at hp
      obtain ⟨rfl, hcurr, hfree⟩ := hprog k hp
      exact ⟨hcurr, by rw [setCell_self, hfree]⟩
    · simp only [Function.update_of_ne hd] at hp
      obtain ⟨hcurr, hfree⟩ := h.prog d k hp
      exact ⟨hcurr, by rw [setCell_of_ne fun hdk => hd hdk.1, hfree]⟩
  case poll =>
    intro d k hp
    by_cases hd : d = c
    · subst hd
      simp only [Function.update_self] at hp
      exact absurd hp (hpoll k)
    · simp only [Function.update_of_ne hd] at hp
      rw [← h.poll d k hp]
      exact setCell_of_ne fun hdk => hd hdk.1
  case plain => exact h.plain_update hplain
  case working =>
    intro hwork
    obtain ⟨job, hjob⟩ := h.working hwork
    exact ⟨job, (hcur hwork).trans hjob⟩
  case storing => exact h.storing
  case fetched =>
    intro d k job hd
    by_cases hdk : d = c ∧ k = j
    · obtain ⟨rfl, rfl⟩ := hdk
      rw [setCell_self] at hd
      exact absurd hd (hph job)
    · rw [setCell_of_ne hdk] at hd
      exact h.fetched d k job hd

/-- The core goes on without a change of the table. -/
theorem goto (h : Jobs s φ) (c : Fin N) (p : Pc) {next : Fin N → Option Slot} (hnext : ∀ d, d ≠ c → next d = s.table.jobCurrProg d)
    (hentry : ∀ k, p.entry c k = (s.pc c).entry c k) (hprog : ∀ k, p.Programs k → next c = some k ∧ φ c k = .free)
    (hpoll : ∀ k, p = .poll k → s.held c k = .started false) (hplain : p.Plain) :
    Jobs { s with table := { s.table with jobCurrProg := next }, pc := Function.update s.pc c p } φ := by
  refine ⟨fun d k => ?_, h.ok, h.held, fun d k hp => ?_, fun d k hp => ?_, h.plain_update hplain, h.working, h.storing,
    h.fetched⟩
  · rw [h.table d k]
    by_cases hd : d = c
    · subst hd
      simp only [Function.update_self]
      unfold Phase.entry
      split
      · exact (hentry k).symm
      all_goals rfl
    · simp only [Function.update_of_ne hd]
  · by_cases hd : d = c
    · subst hd
      simp only [Function.update_self] at hp
      exact hprog k hp
    · simp only [Function.update_of_ne hd] at hp
      exact ⟨(hnext d hd).trans (h.prog d k hp).1, (h.prog d k hp).2⟩
  · by_cases hd : d = c
    · subst hd
      simp only [Function.update_self] at hp
      exact hpoll k hp
    · simp only [Function.update_of_ne hd] at hp
      exact h.poll d k hp

/-- A write of `dma_prog` that is not the last one. -/
theorem write (h : Jobs s φ) (p : Pc) (hfrom : (s.pc core).Programs job) (hto : p.Programs job) (hpoll : ∀ k, p ≠ .poll k)
    (hplain : p.Plain) {v : Job} (hv : v = p.entry core job) :
    Jobs { s with table := s.table.setJob core job v, pc := Function.update s.pc core p } φ := by
  obtain ⟨hcurr, hfree⟩ := h.prog core job hfrom
  have hput := h.put core job .free p (s.held core job) (fun w => by rw [hfree]; exact ⟨nofun, nofun⟩) nofun trivial
    (hfree ▸ h.held core job) (fun k hk => by rw [Pc.entry_of_ne hto hk, Pc.entry_of_ne hfrom hk])
    (fun k hk => ?_) hpoll hplain hv
  · rwa [setCell_id, ← hfree, setCell_id] at hput
  · by_cases hkj : k = job
    · exact ⟨hkj, hcurr, rfl⟩
    · exfalso
      cases p with
      | user | poll | asleep | collect => exact hto
      | addr1 | addr2 | mode => exact hkj (Eq.trans (Eq.symm hk) hto)

/-- A core that polls finds a job done that was moved. -/
theorem moved_of_done (h : Jobs s φ) (hpc : s.pc core = .poll job) (hdone : (s.table.jt core job).done = true) :
    ∃ v, φ core job = .moved v := by
  have hok := h.ok core job
  rw [h.table core job] at hdone
  cases hph : φ core job with
  | moved v => exact ⟨v, rfl⟩
  | free =>
    rw [hph, hpc] at hdone
    cases hdone
  | programmed v | queued v | fetched v =>
    rw [hph] at hdone hok
    cases hok.1.done.symm.trans hdone

theorem coreId_ne (hN : N ≤ 255) (c : Fin N) : Int8.ofNat c ≠ -1 := by
  intro h
  have hbits : c.val % 256 = 255 := congrArg (fun i : Int8 => i.toBitVec.toNat) h
  have hlt := c.isLt
  omega

/-- A core that is not programming finds the slots free that are between two lives. -/
theorem free_iff (h : Jobs s φ) (hN : N ≤ 255) (hpc : s.pc c = .user) (j : Slot) :
    (s.table.jt c j).coreId = -1 ↔ φ c j = .free := by
  have hok := h.ok c j
  have hne := coreId_ne hN c
  rw [h.table c j]
  cases hph : φ c j with
  | free =>
    rw [hpc]
    exact ⟨fun _ => rfl, fun _ => rfl⟩
  | moved job =>
    rw [hph] at hok
    exact ⟨fun hid => absurd (hok.1.coreId.symm.trans hid) hne, fun h => nomatch h⟩
  | programmed job | queued job | fetched job =>
    rw [hph] at hok
    exact ⟨fun hid => absurd (hok.1.coreId.symm.trans hid) hne, fun h => nomatch h⟩

end Jobs

/-- The event of a step at one slot. -/
theorem run_setCell {e : Event} {ph : Phase} (hlife : life (φ core job) e = some ph) (c : Fin N) (j : Slot) :
    Trans.run life (φ c j) (if core = c ∧ job = j then [e] else []) = some (setCell φ core job ph c j) := by
  by_cases hcj : core = c ∧ job = j
  · obtain ⟨rfl, rfl⟩ := hcj
    rw [if_pos ⟨rfl, rfl⟩, setCell_self]
    simp [Trans.run, hlife]
  · rw [if_neg hcj, setCell_of_ne fun h => hcj ⟨h.1.symm, h.2.symm⟩]
    rfl

/-- What `dma_prog` has after its first access. -/
theorem progStep_cases (hs : progStep s core args = some t) : s.pc core = .user ∧
    t = match look4FreeSlot s.table core with
      | some job => { s with
          table := { s.table with jobCurrProg := Function.update s.table.jobCurrProg core (some job) }
          pc := Function.update s.pc core (.addr1 job args) }
      | none => { s with table := { s.table with jobCurrProg := Function.update s.table.jobCurrProg core none } } := by
  unfold progStep at hs
  split at hs
  · rename_i hpc
    refine ⟨hpc, ?_⟩
    simp only [State.access, request_freeSlot, Option.map_some, Option.bind_eq_bind, Option.bind_some,
      Option.some.injEq] at hs
    rw [← hs]
    cases look4FreeSlot s.table core with
    | none => rfl
    | some job =>
      have hlt : job.val < 16 := job.isLt
      have hjob : (slotWord (some job)).toNat = job := by
        change (UInt32.ofNat job).toNat = job
        rw [UInt32.toNat_ofNat', Nat.mod_eq_of_lt (by omega)]
      have h : (slotWord (some job)).toNat < JT_SIZE := by rw [hjob]; exact hlt
      rw [dif_pos h]
      simp only [State.goto, hjob]
  · cases hs

theorem progStep_jobs (hN : N ≤ 255) (h : Jobs s φ) (hargs : args.Plain) (hs : progStep s core args = some t) :
    Jobs t φ := by
  obtain ⟨hpc, rfl⟩ := progStep_cases hs
  cases hfree : look4FreeSlot s.table core with
  | some job =>
    have hslot : φ core job = .free := (h.free_iff hN hpc job).1 (beq_iff_eq.1 (Scan.first_some hfree))
    refine h.goto core (.addr1 job args) (fun d hd => Function.update_of_ne hd _ _) (fun k => by rw [hpc]; rfl) (fun k hk => ?_)
      (fun k hk => nomatch hk) hargs
    obtain rfl : job = k := hk
    exact ⟨Function.update_self .., hslot⟩
  | none =>
    have hnext := h.goto core (s.pc core) (fun d hd => Function.update_of_ne hd none s.table.jobCurrProg)
      (fun k => rfl) (fun k hk => by rw [hpc] at hk; exact hk.elim) (fun k hk => by rw [hpc] at hk; cases hk)
      (h.plain core)
    rwa [Function.update_eq_self] at hnext

/-- A job that is started is queued with its trigger. -/
theorem startStep_jobs (h : Jobs s φ) (hs : startStep s core job = some t) :
    ∃ ph, life (φ core job) .start = some ph ∧ Jobs t (setCell φ core job ph) := by
  unfold startStep at hs
  split at hs
  · rename_i async sleep hpc hheld
    simp only [State.access, triggered_jobId, request_trigger, Option.map_some, Option.bind_eq_bind, Option.bind_some,
      Option.some.injEq] at hs
    obtain ⟨rfl, v, hph, hpri⟩ : sleep = false ∧ ∃ v, φ core job = .programmed v ∧ v.pri = async := by
      have := h.held core job
      rwa [hheld] at this
    have hok := h.ok core job
    rw [hph] at hok
    refine ⟨.queued { v with trigger := true }, by rw [hph]; rfl, ?_⟩
    have hput := h.put core job (.queued { v with trigger := true }) (s.pc core) (heldStarted async false) (fun w => by rw [hph]; exact ⟨Phase.noConfusion, Phase.noConfusion⟩)
      (fun w hw => nomatch hw) ⟨⟨hok.1.coreId, hok.1.done, hok.1.sleep⟩, rfl⟩ (hpri ▸ heldStarted_of) (fun k _ => rfl)
      (fun k hk => by rw [hpc] at hk; exact hk.elim) (fun k hk => by rw [hpc] at hk; cases hk)
      (h.plain core) rfl
    rw [Function.update_eq_self] at hput
    have hjt : s.table.jt core job = v := by rw [h.table, hph]; rfl
    rw [← hs, hjt]
    exact hput
  · cases hs

/-- A core that waits polls for its job. -/
theorem waitStep_jobs (h : Jobs s φ) (hs : waitStep s core job = some t) : Jobs t φ := by
  unfold waitStep at hs
  split at hs
  · rename_i sleep hpc hheld
    obtain rfl : sleep = false := by
      have := h.held core job
      rw [hheld] at this
      exact this.1
    rw [if_pos ((jobId_lt job false).2 rfl)] at hs
    obtain rfl := Option.some.inj hs
    refine h.goto core (.poll job) (fun _ _ => rfl) (fun k => by rw [hpc]; rfl) nofun (fun k hk => ?_) trivial
    obtain rfl : job = k := Pc.poll.inj hk
    exact hheld
  · cases hs

/-- The last store of `dma_prog` programs the job. -/
theorem modeStep_jobs {job : Slot} {args : Args} (h : Jobs s φ) (hpc : s.pc core = .mode job args)
    (hs : goStep s core = some t) :
    ∃ ψ, (∀ c j, Trans.run life (φ c j) (events c j s (.go core)) = some (ψ c j)) ∧ Jobs t ψ := by
  have hplain := h.plain core
  unfold goStep at hs
  rw [hpc] at hs hplain
  have hfrom : (s.pc core).Programs job := by rw [hpc]; rfl
  obtain ⟨hcurr, hfree⟩ := h.prog core job hfrom
  have hjt : s.table.jt core job = { coreId := Int8.ofNat core, addr1 := args.addr1, addr2 := args.addr2 } := by
    rw [h.table, hfree, hpc]
    exact if_pos rfl
  simp only [State.access, request_mode hcurr hplain, Option.map_some, Option.bind_eq_bind, Option.bind_some,
    Option.some.injEq, hjt] at hs
  obtain ⟨hok, hheld, hentry, hfetched⟩ := hplain.phase_ok core
  have hput := h.put core job (args.phase core) .user args.held (fun w => by rw [hfree]; exact ⟨nofun, nofun⟩) hfetched
    hok hheld (fun k hk => (Pc.entry_of_ne hfrom hk core).symm) (fun k hk => hk.elim) (fun k hk => nomatch hk)
    trivial (hentry .user job).symm
  refine ⟨_, fun c j => ?_, by rw [← hs]; exact hput⟩
  rw [events, hpc]
  exact run_setCell (by rw [hfree]; rfl) c j

/-- A read of `dma_wait` frees the slot of a job that is done. -/
theorem pollStep_jobs {job : Slot} (h : Jobs s φ) (hpc : s.pc core = .poll job) (hs : goStep s core = some t) :
    ∃ ψ, (∀ c j, Trans.run life (φ c j) (events c j s (.go core)) = some (ψ c j)) ∧ Jobs t ψ := by
  unfold goStep at hs
  rw [hpc] at hs
  simp only [State.access, request_done, Option.map_some, Option.bind_eq_bind, Option.bind_some,
    Option.some.injEq] at hs
  cases hdone : (s.table.jt core job).done with
  | false =>
    refine ⟨φ, fun c j => ?_, ?_⟩
    · rw [events, hpc]
      dsimp only
      rw [if_neg]
      · rfl
      · rintro ⟨rfl, rfl, hd⟩
        rw [hdone] at hd
        cases hd
    · simp only [hdone] at hs
      rw [← hs]
      exact h
  | true =>
    obtain ⟨v, hmoved⟩ := h.moved_of_done hpc hdone
    simp only [hdone, if_true] at hs
    have hput := h.put core job .free .user .nothing (fun w => by rw [hmoved]; exact ⟨nofun, nofun⟩) nofun trivial trivial
      (fun k _ => by rw [hpc]; rfl) (fun k hk => hk.elim) (fun k hk => nomatch hk) trivial (v := {}) rfl
    refine ⟨_, fun c j => ?_, by rw [← hs]; exact hput⟩
    rw [events, hpc]
    dsimp only
    by_cases hcj : core = c ∧ job = j
    · obtain ⟨rfl, rfl⟩ := hcj
      rw [if_pos ⟨rfl, rfl, hdone⟩, setCell_self, hmoved]
      rfl
    · rw [if_neg fun hd => hcj ⟨hd.1, hd.2.1⟩, setCell_of_ne fun hd => hcj ⟨hd.1.symm, hd.2.symm⟩]
      rfl

/-- An access of a core that is in `dma_prog` or `dma_wait`. -/
theorem goStep_jobs (h : Jobs s φ) (hs : goStep s core = some t) :
    ∃ ψ, (∀ c j, Trans.run life (φ c j) (events c j s (.go core)) = some (ψ c j)) ∧ Jobs t ψ := by
  have hplain := h.plain core
  cases hpc : s.pc core with
  | user => simp [goStep, hpc] at hs
  | asleep | collect =>
    rw [hpc] at hplain
    exact hplain.elim
  | addr1 job args =>
    rw [hpc] at hplain
    have hfrom : (s.pc core).Programs job := by rw [hpc]; rfl
    obtain ⟨hcurr, hfree⟩ := h.prog core job hfrom
    have hjt : s.table.jt core job = {} := by rw [h.table, hfree, hpc]; rfl
    simp only [goStep, hpc, State.access, request_addr1 hcurr, Option.map_some, Option.bind_eq_bind, Option.bind_some,
      Option.some.injEq] at hs
    refine ⟨φ, fun c j => by rw [events, hpc]; rfl, hs ▸ h.write (.addr2 job args) hfrom rfl (fun k hk => nomatch hk) hplain ?_⟩
    rw [hjt]
    exact (if_pos rfl).symm
  | addr2 job args =>
    rw [hpc] at hplain
    have hfrom : (s.pc core).Programs job := by rw [hpc]; rfl
    obtain ⟨hcurr, hfree⟩ := h.prog core job hfrom
    have hjt : s.table.jt core job = { coreId := Int8.ofNat core, addr1 := args.addr1 } := by
      rw [h.table, hfree, hpc]
      exact if_pos rfl
    simp only [goStep, hpc, State.access, request_addr2 hcurr, Option.map_some, Option.bind_eq_bind, Option.bind_some,
      Option.some.injEq] at hs
    refine ⟨φ, fun c j => by rw [events, hpc]; rfl, hs ▸ h.write (.mode job args) hfrom rfl (fun k hk => nomatch hk) hplain ?_⟩
    rw [hjt]
    exact (if_pos rfl).symm
  | mode job args => exact modeStep_jobs h hpc hs
  | poll job => exact pollStep_jobs h hpc hs

namespace Jobs

/-- Nothing is programmed in a slot that is in a life. -/
theorem entry_of_not_free (h : Jobs s φ) (hne : φ c j ≠ .free) : (s.pc c).entry c j = {} := by
  have hprog := h.prog c j
  cases hpc : s.pc c with
  | user | addr1 | poll | asleep | collect => rfl
  | addr2 job args | mode job args =>
    rw [hpc] at hprog
    exact if_neg fun hj => hne (hprog hj).2

/-- The job that is transferred. -/
theorem currentJob (h : Jobs s φ) (hwork : s.table.workingSig = true) :
    φ s.table.currCore s.table.currSlot =
        (if s.storing then .fetched s.table.currentJob else .queued s.table.currentJob) ∧
      Filled s.table.currCore s.table.currentJob ∧ s.table.currentJob.trigger = true := by
  obtain ⟨v, hv⟩ := h.working hwork
  have hok := h.ok s.table.currCore s.table.currSlot
  have hjob : s.table.currentJob = v := by
    rw [Dma.State.currentJob, h.table, hv]
    split <;> rfl
  rw [hv] at hok
  rw [hjob]
  refine ⟨hv, ?_⟩
  split at hok <;> exact hok

/-- A job that can run is queued. -/
theorem queued_of_runnable (h : Jobs s φ) (hidle : s.storing = false) (hrun : (s.table.jt c j).runnable = true) :
    ∃ v, φ c j = .queued v := by
  have hok := h.ok c j
  rw [h.table c j, Job.runnable, Bool.and_eq_true, Bool.not_eq_true'] at hrun
  cases hph : φ c j with
  | queued v => exact ⟨v, rfl⟩
  | fetched v =>
    have := (h.fetched c j v hph).1
    rw [hidle] at this
    cases this
  | moved v =>
    rw [hph] at hrun
    cases hrun.2
  | programmed v =>
    rw [hph] at hrun hok
    cases hok.2.symm.trans hrun.1
  | free =>
    rw [hph] at hrun
    have hnot : ((s.pc c).entry c j).trigger = false := by
      unfold Pc.entry
      split
      · split <;> rfl
      · split <;> rfl
      · rfl
    cases hnot.symm.trans hrun.1

theorem schedule (h : Jobs s φ) : Jobs { s with table := setNextJob s.table } φ := by
  have hsame := setNextJob_same s.table
  cases hwork : s.table.workingSig with
  | true =>
    have heq : setNextJob s.table = s.table := by rw [setNextJob, hwork, if_pos rfl]
    rw [heq]
    exact h
  | false =>
    have hidle : s.storing = false := by
      by_contra hst
      rw [h.storing (by simpa using hst)] at hwork
      cases hwork
    refine ⟨fun c j => ?_, h.ok, h.held, fun c j hp => ?_, h.poll, h.plain, fun hw => ?_, fun hst => ?_,
      fun c j v hv => ?_⟩
    · rw [hsame.jt]
      exact h.table c j
    · rw [hsame.jobCurrProg]
      exact h.prog c j hp
    · have hrun := setNextJob_runnable hwork hw
      rw [Dma.State.currentJob, hsame.jt] at hrun
      obtain ⟨v, hv⟩ := h.queued_of_runnable hidle hrun
      exact ⟨v, by rw [hidle]; exact hv⟩
    · rw [hidle] at hst
      cases hst
    · have := (h.fetched c j v hv).1
      rw [hidle] at this
      cases this

/-- The SOURCE phase of the current job. -/
theorem source (h : Jobs s φ) (hwork : s.table.workingSig = true) (hidle : s.storing = false) {e : Engine} :
    Jobs { s with engine := e, storing := true }
      (setCell φ s.table.currCore s.table.currSlot (.fetched s.table.currentJob)) := by
  obtain ⟨hph, hok⟩ := h.currentJob hwork
  rw [hidle] at hph
  refine ⟨fun c j => ?_, fun c j => ?_, fun c j => ?_, fun c j hp => ?_, h.poll, h.plain, fun _ => ⟨_, setCell_self ..⟩,
    fun _ => hwork, fun c j v hv => ?_⟩
  · by_cases hcj : c = s.table.currCore ∧ j = s.table.currSlot
    · obtain ⟨rfl, rfl⟩ := hcj
      rw [setCell_self]
      rfl
    · rw [setCell_of_ne hcj]
      exact h.table c j
  · by_cases hcj : c = s.table.currCore ∧ j = s.table.currSlot
    · obtain ⟨rfl, rfl⟩ := hcj
      rw [setCell_self]
      exact hok
    · rw [setCell_of_ne hcj]
      exact h.ok c j
  · have hheld := h.held c j
    by_cases hcj : c = s.table.currCore ∧ j = s.table.currSlot
    · obtain ⟨rfl, rfl⟩ := hcj
      rw [setCell_self]
      change (s.held s.table.currCore s.table.currSlot).Of _
      rw [hph] at hheld
      cases hs : s.held s.table.currCore s.table.currSlot with
      | nothing => trivial
      | started sleep =>
        rw [hs] at hheld
        exact hheld
      | programmed async sleep =>
        rw [hs] at hheld
        obtain ⟨-, v, hv, -⟩ := hheld
        cases hv
    · rw [setCell_of_ne hcj]
      exact hheld
  · obtain ⟨hcurr, hfree⟩ := h.prog c j hp
    refine ⟨hcurr, ?_⟩
    rw [setCell_of_ne, hfree]
    rintro ⟨rfl, rfl⟩
    rw [hph] at hfree
    cases hfree
  · by_cases hcj : c = s.table.currCore ∧ j = s.table.currSlot
    · exact ⟨rfl, hcj⟩
    · rw [setCell_of_ne hcj] at hv
      have := (h.fetched c j v hv).1
      rw [hidle] at this
      cases this

/-- The end of the TARGET phase: a job with a priority is cleared at once. -/
theorem target (h : Jobs s φ) (hst : s.storing = true) {e : Engine} {ev : Fin N → Bool} :
    Jobs { s with engine := e, storing := false, table := jobDone s.table, dmaEvent := ev }
      (setCell φ s.table.currCore s.table.currSlot
        (if s.table.currentJob.pri = 0 then .moved s.table.currentJob else .free)) := by
  obtain ⟨hph, hfilled, -⟩ := h.currentJob (h.storing hst)
  rw [hst, if_pos rfl] at hph
  have hempty : (s.pc s.table.currCore).entry s.table.currCore s.table.currSlot = {} :=
    h.entry_of_not_free (by rw [hph]; exact nofun)
  have hdone := jobDone_awake hfilled.sleep
  refine ⟨fun c j => ?_, fun c j => ?_, fun c j => ?_, fun c j hp => ?_, h.poll, h.plain, fun hw => ?_, nofun,
    fun c j v hv => ?_⟩
  · rw [hdone]
    simp only [jt_setJob]
    by_cases hcj : c = s.table.currCore ∧ j = s.table.currSlot
    · obtain ⟨rfl, rfl⟩ := hcj
      rw [setCell_self, setCell_self]
      split
      · rfl
      · exact hempty.symm
    · rw [setCell_of_ne hcj, setCell_of_ne hcj]
      exact h.table c j
  · by_cases hcj : c = s.table.currCore ∧ j = s.table.currSlot
    · obtain ⟨rfl, rfl⟩ := hcj
      rw [setCell_self]
      split
      · rename_i hpri
        exact ⟨hfilled, hpri⟩
      · trivial
    · rw [setCell_of_ne hcj]
      exact h.ok c j
  · have hheld := h.held c j
    by_cases hcj : c = s.table.currCore ∧ j = s.table.currSlot
    · obtain ⟨rfl, rfl⟩ := hcj
      rw [setCell_self]
      change (s.held s.table.currCore s.table.currSlot).Of _
      rw [hph] at hheld
      cases hs : s.held s.table.currCore s.table.currSlot with
      | nothing => trivial
      | started sleep =>
        rw [hs] at hheld
        have hpri : s.table.currentJob.pri = 0 := hheld.2
        rw [if_pos hpri]
        exact ⟨hheld.1, trivial⟩
      | programmed async sleep =>
        rw [hs] at hheld
        obtain ⟨-, v, hv, -⟩ := hheld
        cases hv
    · rw [setCell_of_ne hcj]
      exact hheld
  · obtain ⟨hcurr, hfree⟩ := h.prog c j hp
    rw [hdone]
    refine ⟨hcurr, ?_⟩
    rw [setCell_of_ne, hfree]
    rintro ⟨rfl, rfl⟩
    rw [hph] at hfree
    cases hfree
  · rw [hdone] at hw
    cases hw
  · by_cases hcj : c = s.table.currCore ∧ j = s.table.currSlot
    · obtain ⟨rfl, rfl⟩ := hcj
      rw [setCell_self] at hv
      split at hv <;> cases hv
    · rw [setCell_of_ne hcj] at hv
      exact absurd (h.fetched c j v hv).2 hcj

end Jobs

/-- The calls of `dma_prog` are plain. -/
def Act.Plain : Act N → Prop
  | .prog _ args => args.Plain
  | .start _ _ | .wait _ _ | .go _ | .schedule | .source | .target | .memory _ => True

instance : ∀ a : Act N, Decidable a.Plain
  | .prog _ args => inferInstanceAs (Decidable args.Plain)
  | .start _ _ | .wait _ _ | .go _ | .schedule | .source | .target | .memory _ => isTrue trivial

/-- What a step of the source, the target or the scheduler finds. -/
theorem step_jobs (hN : N ≤ 255) (h : Jobs s φ) (ha : a.Plain) (hs : step s a = some t) :
    ∃ ψ, (∀ c j, Trans.run life (φ c j) (events c j s a) = some (ψ c j)) ∧ Jobs t ψ := by
  cases a with
  | prog core args => exact ⟨φ, fun _ _ => rfl, progStep_jobs hN h ha hs⟩
  | start core job =>
    obtain ⟨ph, hph, hnext⟩ := startStep_jobs h hs
    exact ⟨_, run_setCell hph, hnext⟩
  | wait core job => exact ⟨φ, fun _ _ => rfl, waitStep_jobs h hs⟩
  | go core => exact goStep_jobs h hs
  | schedule =>
    obtain rfl := Option.some.inj hs
    exact ⟨φ, fun _ _ => rfl, h.schedule⟩
  | source =>
    simp only [step] at hs
    split at hs
    · rename_i hguard
      rw [Bool.and_eq_true, Bool.not_eq_true'] at hguard
      obtain ⟨e, -, rfl⟩ := Option.map_eq_some_iff.1 hs
      obtain ⟨hph, -⟩ := h.currentJob hguard.1
      refine ⟨_, run_setCell ?_, h.source hguard.1 hguard.2⟩
      rw [hph, hguard.2]
      exact if_pos rfl
    · cases hs
  | target =>
    simp only [step] at hs
    split at hs
    · rename_i hst
      obtain ⟨e, -, rfl⟩ := Option.map_eq_some_iff.1 hs
      obtain ⟨hph, -⟩ := h.currentJob (h.storing hst)
      refine ⟨_, run_setCell ?_, h.target hst⟩
      rw [hph, hst]
      exact if_pos rfl
    · cases hs
  | memory mem =>
    simp only [step] at hs
    split at hs
    · obtain rfl := Option.some.inj hs
      exact ⟨φ, fun _ _ => rfl, h.table, h.ok, h.held, h.prog, h.poll, h.plain, h.working, h.storing, h.fetched⟩
    · cases hs

/-! ## Runs -/

variable {mem : MemClass} {io : Nat → UInt32} {as : List (Act N)}

/-- The phase of every slot follows what is seen of it. -/
theorem follow_jobs (hN : N ≤ 255) (h : Jobs s φ) (has : ∀ a ∈ as, a.Plain) (hr : Trans.run step s as = some t) :
    ∃ ψ, Jobs t ψ ∧ ∀ c j, Trans.run life (φ c j) (Trans.trace step (events c j) s as) = some (ψ c j) := by
  induction as generalizing s φ with
  | nil =>
    cases hr
    exact ⟨φ, h, fun _ _ => rfl⟩
  | cons a as ih =>
    obtain ⟨u, hu, hr⟩ := Trans.run_cons.1 hr
    obtain ⟨ψ, hψ, hnext⟩ := step_jobs hN h (has a List.mem_cons_self) hu
    obtain ⟨χ, hχ, hrest⟩ := ih hnext (fun b hb => has b (List.mem_cons_of_mem a hb)) hr
    refine ⟨χ, hχ, fun c j => ?_⟩
    rw [Trans.trace_cons hu]
    exact Trans.run_append.2 ⟨ψ c j, hψ c j, hrest c j⟩

/-- **A job is moved once**, in every run of the programs and the engine in which nobody asks for sleep mode: what is
seen of a slot is a sequence of lives, in each of which the job is fetched and stored once, as the program asked for it
and after it was started, and the program is told that it is done after that; a slot is given out again after the
life before. -/
theorem dma_jobs [NeZero N] (hN : N ≤ 255) (has : ∀ a ∈ as, a.Plain) (hr : Trans.run step (init mem io) as = some s)
    (core : Fin N) (job : Slot) :
    ∃ ph, Trans.run life .free (Trans.trace step (events core job) (init mem io) as) = some ph := by
  obtain ⟨φ, -, hφ⟩ := follow_jobs hN (init_jobs mem io) has hr
  exact ⟨φ core job, hφ core job⟩

/-- **`dma_prog` fails** if and only if the core has a job in each of its slots; the slot that it takes is between two
lives. -/
theorem dma_slots [NeZero N] (hN : N ≤ 255) (has : ∀ a ∈ as, a.Plain) (hr : Trans.run step (init mem io) as = some s)
    (hs : step s (.prog core args) = some t) :
    (t.pc core = .user ↔ ∀ job, Trans.run life .free (Trans.trace step (events core job) (init mem io) as) ≠ some .free) ∧
      ∀ job, t.pc core = .addr1 job args →
        Trans.run life .free (Trans.trace step (events core job) (init mem io) as) = some .free := by
  obtain ⟨φ, h, hφ⟩ := follow_jobs hN (init_jobs mem io) has hr
  obtain ⟨hpc, ht⟩ := progStep_cases hs
  have hfree : ∀ job, (s.table.jt core job).coreId = -1 ↔
      Trans.run life .free (Trans.trace step (events core job) (init mem io) as) = some .free := by
    intro job
    rw [h.free_iff hN hpc, hφ core job, Option.some.injEq]
  -- the first free entry of the row of the core, or none
  cases hlook : look4FreeSlot s.table core with
  | none =>
    rw [hlook] at ht
    have huser : t.pc core = .user := by rw [ht]; exact hpc
    refine ⟨⟨fun _ job hjob => ?_, fun _ => huser⟩, fun job hjob => nomatch huser.symm.trans hjob⟩
    have := Scan.first_none.1 hlook job
    rw [(hfree job).2 hjob] at this
    cases this
  | some job =>
    rw [hlook] at ht
    have hprog : t.pc core = .addr1 job args := by rw [ht]; exact Function.update_self ..
    have hjob := (hfree job).1 (beq_iff_eq.1 (Scan.first_some hlook))
    refine ⟨⟨fun huser => (nomatch hprog.symm.trans huser), fun hno => absurd hjob (hno job)⟩, fun job' hjob' => ?_⟩
    obtain ⟨rfl, -⟩ := Pc.addr1.inj (hprog.symm.trans hjob')
    exact hjob

/-- A word from the TCDM to the L3 memory. -/
def oneWord (async : UInt8) (trigger : Bool) : Args where
  addr1 := 0x08000040
  addr2 := 0x100
  size := 4
  direction := true
  async := async
  sleep := false
  trigger := trigger

/-- Core 0 starts its job when it is programmed and waits for it; core 1 leaves its job to the engine. -/
def twoPrograms : List (Act 2) :=
  .prog core0 (oneWord 0 false) :: .prog core1 (oneWord 1 true) :: .go core0 :: .go core1 ::
    List.replicate 2 (.go core0) ++ List.replicate 2 (.go core1) ++
    [.schedule, .start core0 slot0, .wait core0 slot0, .source, .go core0, .target, .schedule, .source, .target, .go core0]

def twoInit : State 2 := @init 2 twoCores (MemClass.new 0x08080000) fun _ => 0

theorem twoPrograms_plain : ∀ a ∈ twoPrograms, a.Plain := by decide

theorem twoPrograms_runs : (Trans.run step twoInit twoPrograms).isSome = true := by decide +kernel

theorem dma_jobs_twoPrograms :
    ∃ ph, Trans.run life .free (Trans.trace step (events core1 slot0) twoInit twoPrograms) = some ph := by
  obtain ⟨s, hs⟩ := Option.isSome_iff_exists.1 twoPrograms_runs
  exact @dma_jobs 2 _ _ _ _ twoCores (by decide) twoPrograms_plain hs core1 slot0

theorem dma_slots_twoPrograms : ∃ s t, Trans.run step twoInit twoPrograms = some s ∧
    step s (.prog core0 (oneWord 0 true)) = some t ∧
    (t.pc core0 = .user ↔ ∀ job, Trans.run life .free (Trans.trace step (events core0 job) twoInit twoPrograms) ≠ some .free) := by
  obtain ⟨t, ht⟩ := Option.isSome_iff_exists.1
    (show ((Trans.run step twoInit twoPrograms).bind fun s => step s (.prog core0 (oneWord 0 true))).isSome = true
      by decide +kernel)
  obtain ⟨s, hs, ht⟩ := Option.bind_eq_some_iff.1 ht
  exact ⟨s, t, hs, ht, (@dma_slots 2 _ _ _ _ _ _ _ twoCores (by decide) twoPrograms_plain hs ht).1⟩

end VirtualSoc.Dma.Driver

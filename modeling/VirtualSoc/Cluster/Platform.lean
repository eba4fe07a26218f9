import VirtualSoc.Cluster.Pic

/-!
# The wiring of the peripheral interconnect (cluster/cl_platform_prv.h, cluster/cl_platform_shr.h)

The decoder of `cl_pic` counts its special slaves from the end of the port array: semaphores, DMA,
counter and accelerator are the last four (cl_pic.cpp:55-96). The builder of the platform with private
instruction caches wires these four at the end. The builder of the platform with the shared cache wires
only two, semaphores and DMA (cl_platform_shr.h:357, :388 and :392), and it connects the L3 multiplexer to
the data ports of the cores alone, not to those of the DMA (cl_platform_shr.h:468).

`routing_agrees`: for both builders and any number of cores and ports, which addresses reach a port that
is connected to the device that owns them.
-/

namespace VirtualSoc.Platform

/-- Which builder: `cl_platform_prv` or `cl_platform_shr`. -/
inductive Builder | prv | shr
deriving DecidableEq, Repr

/-- `N_CORES`, and the numbers of HWS ports of config.h. -/
structure Counts where
  nCores : Nat
  nPrgPorts : Nat
  nSlvPorts : Nat

variable {b : Builder} {c : Counts}

/-- `N_HWS_PORTS` (config.h:81). -/
def Counts.nHwsPorts (c : Counts) : Nat := c.nPrgPorts + c.nSlvPorts

/-- The masters of the interconnect: the cores, and the two ports of the DMA. -/
def Counts.numMasters (c : Counts) : Nat := c.nCores + 2

/-- The `num_slaves` of the constructor call (cl_platform_prv.h:356, cl_platform_shr.h:357). -/
def numSlaves : Builder → Counts → Nat
  | .prv, c => c.nCores + 2 + c.nHwsPorts + 1 + 1 + 1 + 1
  | .shr, c => c.nCores + 2 + c.nHwsPorts + 1 + 1

/-- The signal bundles between the interconnect and the devices. -/
inductive Net
  | dataMuxL3 (i : Nat)
  | hwsPrgPort (i : Nat)
  | hwsSlvPort (i : Nat)
  | sem | dmaSlv | counterSlvPort | acceleratorSlvPort
deriving DecidableEq, Repr

inductive Device | L3 | hws | semaphore | dma | counter | accelerator
deriving DecidableEq, Repr

/-- What `pic->request_slave[i]` is bound to, in the order of the builders (cl_platform_prv.h:366-406,
cl_platform_shr.h:366-392). -/
def picSlaves (b : Builder) (c : Counts) : List (Nat × Net) :=
  (List.range (c.nCores + 2)).map (fun i => (i, Net.dataMuxL3 i)) ++
  (List.range c.nPrgPorts).map (fun i => (c.nCores + 2 + i, Net.hwsPrgPort i)) ++
  (List.range c.nSlvPorts).map (fun i => (c.nCores + 2 + c.nPrgPorts + i, Net.hwsSlvPort i)) ++
  [(c.nCores + 2 + c.nHwsPorts, Net.sem), (c.nCores + 2 + c.nHwsPorts + 1, Net.dmaSlv)] ++
  match b with
  | .prv =>
    [(c.nCores + 2 + c.nHwsPorts + 1 + 1, Net.counterSlvPort),
      (c.nCores + 2 + c.nHwsPorts + 1 + 1 + 1, Net.acceleratorSlvPort)]
  | .shr => []

/-- The other ends of the bundles: the inputs of the L3 multiplexer (cl_platform_prv.h:518,
cl_platform_shr.h:468) and the ports of the devices. -/
def devicePorts (b : Builder) (c : Counts) : List (Net × Device) :=
  (List.range (match b with | .prv => c.nCores + 2 | .shr => c.nCores)).map (fun i => (Net.dataMuxL3 i, Device.L3)) ++
  (List.range c.nPrgPorts).map (fun i => (Net.hwsPrgPort i, Device.hws)) ++
  (List.range c.nSlvPorts).map (fun i => (Net.hwsSlvPort i, Device.hws)) ++
  [(Net.sem, Device.semaphore), (Net.dmaSlv, Device.dma)] ++
  match b with
  | .prv => [(Net.counterSlvPort, Device.counter), (Net.acceleratorSlvPort, Device.accelerator)]
  | .shr => []

/-- The base and the size of each device (config.h; the builders pass them to the constructors). -/
def Device.window : Device → Nat × Nat
  | .L3 => (CL_L3_BASE, CL_L3_SIZE)
  | .hws => (HWS_BASE, HWS_SIZE)
  | .semaphore => (CL_SEM_BASE, CL_SEM_SIZE)
  | .dma => (CL_DMA_BASE, CL_DMA_SIZE)
  | .counter => (COUNTER_BASE_ADDR, COUNTER_MEM_SIZE)
  | .accelerator => (ACCELERATOR_BASE_ADDR, ACCELERATOR_MEM_SIZE)

/-- The address lies in the window of the device. -/
def Device.owns (d : Device) (address : Nat) : Prop :=
  d.window.1 ≤ address ∧ address < d.window.1 + d.window.2

/-- `ID` of the interconnect (cl_platform_prv.h:354, cl_platform_shr.h:357). -/
def PIC_ID : Nat := 0

/-- The decoder accepts the address in the window of this device (cl_pic.cpp:39-96). -/
def Device.accepts (address : Nat) : Device → Bool
  | .L3 => isInL3Space address PIC_ID
  | .hws => isInHWSSpace address PIC_ID
  | .semaphore => isInSemSpace address PIC_ID
  | .dma => isInDmaSpace address PIC_ID
  | .counter => isInCOUNTERSpace address PIC_ID
  | .accelerator => isInACCELERATORSpace address PIC_ID

/-- The slave index that the interconnect computes is in its port array, and the port there is connected
to a device that owns the address. -/
def Agrees (b : Builder) (c : Counts) (id : Fin c.numMasters) (address : Nat) : Prop :=
  ∃ (ids : Fin (numSlaves b c)) (net : Net) (d : Device),
    Pic.decode (numSlaves b c) PIC_ID id address = some ids ∧
    (ids.val, net) ∈ picSlaves b c ∧ (net, d) ∈ devicePorts b c ∧ d.owns address

/-! ## The builders -/

/-- **Every port of the slave array is bound**, once and in order. -/
theorem picSlaves_keys (b : Builder) (c : Counts) : (picSlaves b c).map Prod.fst = List.range (numSlaves b c) := by
  have hports : List.range (c.nCores + 2 + c.nHwsPorts) = List.range (c.nCores + 2) ++
      (List.range c.nPrgPorts).map (fun i => c.nCores + 2 + i) ++
      (List.range c.nSlvPorts).map (fun i => c.nCores + 2 + c.nPrgPorts + i) := by
    rw [Counts.nHwsPorts, ← Nat.add_assoc, List.range_add, List.range_add]
  cases b with
  | prv =>
    rw [numSlaves, List.range_succ, List.range_succ, List.range_succ, List.range_succ, hports]
    simp [picSlaves, Function.comp_def]
  | shr =>
    rw [numSlaves, List.range_succ, List.range_succ, hports]
    simp [picSlaves, Function.comp_def]

/-- Slave port `i` of the interconnect is connected to the device. -/
def Connected (b : Builder) (c : Counts) (i : Nat) (d : Device) : Prop :=
  ∃ net, (i, net) ∈ picSlaves b c ∧ (net, d) ∈ devicePorts b c

/-- The ports that are connected to each device. -/
def portsOf (b : Builder) (c : Counts) (i : Nat) : Device → Prop
  | .L3 => i < match b with | .prv => c.nCores + 2 | .shr => c.nCores
  | .hws => c.nCores + 2 ≤ i ∧ i < c.nCores + 2 + c.nHwsPorts
  | .semaphore => i = c.nCores + 2 + c.nHwsPorts
  | .dma => i = c.nCores + 2 + c.nHwsPorts + 1
  | .counter => b = .prv ∧ i = c.nCores + 2 + c.nHwsPorts + 1 + 1
  | .accelerator => b = .prv ∧ i = c.nCores + 2 + c.nHwsPorts + 1 + 1 + 1

theorem connected_iff {i : Nat} {d : Device} : Connected b c i d ↔ portsOf b c i d := by
  constructor
  · rintro ⟨net, hs, hd⟩
    cases b <;> cases d <;> simp [picSlaves, devicePorts, portsOf, Counts.nHwsPorts] at hs hd ⊢ <;> grind
  · intro h
    cases d with
    | L3 =>
      refine ⟨.dataMuxL3 i, ?_, ?_⟩
      · cases b <;> simp [picSlaves, portsOf] at h ⊢ <;> omega
      · cases b <;> simpa [devicePorts, portsOf] using h
    | hws =>
      simp only [portsOf, Counts.nHwsPorts] at h
      by_cases hi : i < c.nCores + 2 + c.nPrgPorts
      · refine ⟨.hwsPrgPort (i - (c.nCores + 2)), ?_, ?_⟩
        · simp only [picSlaves, List.mem_append, List.mem_map, List.mem_range, Prod.mk.injEq]
          exact Or.inl (Or.inl (Or.inl (Or.inr ⟨i - (c.nCores + 2), by omega, by omega, rfl⟩)))
        · simp only [devicePorts, List.mem_append, List.mem_map, List.mem_range, Prod.mk.injEq]
          exact Or.inl (Or.inl (Or.inl (Or.inr ⟨i - (c.nCores + 2), by omega, rfl, trivial⟩)))
      · refine ⟨.hwsSlvPort (i - (c.nCores + 2 + c.nPrgPorts)), ?_, ?_⟩
        · simp only [picSlaves, List.mem_append, List.mem_map, List.mem_range, Prod.mk.injEq]
          exact Or.inl (Or.inl (Or.inr ⟨i - (c.nCores + 2 + c.nPrgPorts), by omega, by omega, rfl⟩))
        · simp only [devicePorts, List.mem_append, List.mem_map, List.mem_range, Prod.mk.injEq]
          exact Or.inl (Or.inl (Or.inr ⟨i - (c.nCores + 2 + c.nPrgPorts), by omega, rfl, trivial⟩))
    | semaphore =>
      obtain rfl : i = _ := h
      exact ⟨.sem, by simp [picSlaves], by simp [devicePorts]⟩
    | dma =>
      obtain rfl : i = _ := h
      exact ⟨.dmaSlv, by simp [picSlaves], by simp [devicePorts]⟩
    | counter =>
      obtain ⟨rfl, rfl⟩ := h
      exact ⟨.counterSlvPort, by simp [picSlaves], by simp [devicePorts]⟩
    | accelerator =>
      obtain ⟨rfl, rfl⟩ := h
      exact ⟨.acceleratorSlvPort, by simp [picSlaves], by simp [devicePorts]⟩

/-! ## The decoder -/

/-- The index `ids` of the window that accepts the address (cl_pic.cpp:41-87). -/
def Device.ids (m n : Nat) (id : Fin n) (address : Nat) : Device → Int
  | .L3 => id
  | .hws => n + Pic.getHWSPort address
  | .semaphore => m - 4
  | .dma => m - 3
  | .counter => m - 2
  | .accelerator => m - 1

/-- A window accepts what its device owns; the one of the DMA also the address after its end. -/
theorem accepts_iff {d : Device} {address : Nat} :
    d.accepts address = true ↔ d.owns address ∨ d = .dma ∧ address = CL_DMA_BASE + CL_DMA_SIZE := by
  cases d <;> simp [Device.accepts, Device.owns, Device.window, isInL3Space, isInHWSSpace, isInSemSpace, isInDmaSpace,
    isInCOUNTERSpace, isInACCELERATORSpace, inSpace, tileAddr, PIC_ID, CL_L3_BASE, CL_L3_SIZE, HWS_BASE, HWS_SIZE,
    CL_SEM_BASE, CL_SEM_SIZE, CL_DMA_BASE, CL_DMA_SIZE, COUNTER_BASE_ADDR, COUNTER_MEM_SIZE, ACCELERATOR_BASE_ADDR,
    ACCELERATOR_MEM_SIZE]
  omega

/-- The windows do not touch. -/
theorem window_disjoint {d e : Device} (h : d ≠ e) :
    d.window.1 + d.window.2 < e.window.1 ∨ e.window.1 + e.window.2 < d.window.1 := by
  revert h
  cases d <;> cases e <;> decide

theorem accepts_window {d : Device} {address : Nat} (h : d.accepts address = true) :
    d.window.1 ≤ address ∧ address ≤ d.window.1 + d.window.2 := by
  obtain ⟨hlow, hhigh⟩ | ⟨rfl, rfl⟩ := accepts_iff.1 h
  · exact ⟨hlow, hhigh.le⟩
  · exact ⟨Nat.le_add_right _ _, le_refl _⟩

theorem accepts_inj {d e : Device} {address : Nat} (hd : d.accepts address = true) (he : e.accepts address = true) :
    d = e := by
  by_contra hne
  have hwd := accepts_window hd
  have hwe := accepts_window he
  have := window_disjoint hne
  omega

theorem decode_accepts {m n : Nat} {id : Fin n} {address : Nat} {d : Device} (hd : d.accepts address = true) :
    Pic.decode m PIC_ID id address = Pic.slavePort m (d.ids m n id address) := by
  have hother : ∀ e : Device, e.accepts address = decide (e = d) := by
    intro e
    by_cases he : e = d
    · rw [he, hd]
      simp
    · rw [decide_eq_false he]
      by_contra hacc
      exact he (accepts_inj (by simpa using hacc) hd)
  have hL3 : isInL3Space address PIC_ID = decide (Device.L3 = d) := hother .L3
  have hHws : isInHWSSpace address PIC_ID = decide (Device.hws = d) := hother .hws
  have hSem : isInSemSpace address PIC_ID = decide (Device.semaphore = d) := hother .semaphore
  have hDma : isInDmaSpace address PIC_ID = decide (Device.dma = d) := hother .dma
  have hCounter : isInCOUNTERSpace address PIC_ID = decide (Device.counter = d) := hother .counter
  have hAcc : isInACCELERATORSpace address PIC_ID = decide (Device.accelerator = d) := hother .accelerator
  unfold Pic.decode
  rw [hL3, hHws, hSem, hDma, hCounter, hAcc]
  cases d <;> rfl

theorem slavePort_eq {m : Nat} {ids : Int} {i : Fin m} : Pic.slavePort m ids = some i ↔ ids = i := by
  unfold Pic.slavePort
  split
  · rename_i h
    simp only [Option.some.injEq, Fin.ext_iff]
    omega
  · rename_i h
    have hi := i.isLt
    simp only [reduceCtorEq, false_iff]
    omega

/-! ## Where the two agree -/

/-- The addresses of a window that are wired to its device: in the platform with the shared cache the L3
memory for the cores only, and none of the last four devices; of the HWS window those whose low byte is
that of a port; not the address after the end of the DMA. -/
def Wired (b : Builder) (c : Counts) (id address : Nat) : Device → Prop
  | .L3 => b = .prv ∨ id < c.nCores
  | .hws => Pic.getHWSPort address < c.nHwsPorts
  | .semaphore => b = .prv
  | .dma => b = .prv ∧ address ≠ CL_DMA_BASE + CL_DMA_SIZE
  | .counter => b = .prv
  | .accelerator => b = .prv

/-- The computed index is one of the ports of the device exactly for the wired addresses. -/
theorem ids_wired {id : Fin c.numMasters} {address : Nat} {d : Device} (ho : d.owns address) :
    (∃ i : Fin (numSlaves b c), d.ids (numSlaves b c) c.numMasters id address = i ∧ portsOf b c i d) ↔
      Wired b c id address d := by
  have hid := id.isLt
  have hne : d = .dma → address ≠ CL_DMA_BASE + CL_DMA_SIZE := by
    rintro rfl
    exact Nat.ne_of_lt ho.2
  constructor
  · rintro ⟨i, hi, hp⟩
    have hlt := i.isLt
    cases b <;> cases d <;>
      simp [Device.ids, portsOf, Wired, numSlaves, Counts.numMasters] at hi hp hlt hne ⊢ <;> omega
  · intro hw
    cases d with
    | L3 =>
      refine ⟨⟨id, ?_⟩, rfl, ?_⟩
      · cases b <;> simp only [numSlaves, Counts.numMasters] at hid ⊢ <;> omega
      · cases b with
        | prv => exact hid
        | shr => simpa [portsOf, Wired] using hw
    | hws =>
      have hw : Pic.getHWSPort address < c.nHwsPorts := hw
      refine ⟨⟨c.nCores + 2 + Pic.getHWSPort address, ?_⟩, ?_, ?_⟩
      · cases b <;> simp only [numSlaves] <;> omega
      · simp [Device.ids, Counts.numMasters]
      · simp only [portsOf]
        omega
    | semaphore =>
      obtain rfl : b = .prv := hw
      exact ⟨⟨c.nCores + 2 + c.nHwsPorts, by simp only [numSlaves]; omega⟩,
        by simp [Device.ids, numSlaves]; omega, rfl⟩
    | dma =>
      obtain ⟨rfl, -⟩ : b = .prv ∧ _ := hw
      exact ⟨⟨c.nCores + 2 + c.nHwsPorts + 1, by simp only [numSlaves]; omega⟩,
        by simp [Device.ids, numSlaves]; omega, rfl⟩
    | counter =>
      obtain rfl : b = .prv := hw
      exact ⟨⟨c.nCores + 2 + c.nHwsPorts + 1 + 1, by simp only [numSlaves]; omega⟩,
        by simp [Device.ids, numSlaves]; omega, rfl, rfl⟩
    | accelerator =>
      obtain rfl : b = .prv := hw
      exact ⟨⟨c.nCores + 2 + c.nHwsPorts + 1 + 1 + 1, by simp only [numSlaves]; omega⟩,
        by simp [Device.ids, numSlaves], rfl, rfl⟩

/-- A wired address is one that the device owns. -/
theorem owns_of_wired {id address : Nat} {d : Device} (hd : d.accepts address = true) (hw : Wired b c id address d) :
    d.owns address := by
  rcases accepts_iff.1 hd with ho | ⟨rfl, he⟩
  · exact ho
  · exact absurd he hw.2

theorem agrees_iff {id : Fin c.numMasters} {address : Nat} {d : Device} (hd : d.accepts address = true) :
    Agrees b c id address ↔ d.owns address ∧
      ∃ i : Fin (numSlaves b c), d.ids (numSlaves b c) c.numMasters id address = i ∧ portsOf b c i d := by
  constructor
  · rintro ⟨i, net, e, hdec, hs, hp, ho⟩
    obtain rfl : e = d := accepts_inj (accepts_iff.2 (Or.inl ho)) hd
    rw [decode_accepts hd, slavePort_eq] at hdec
    exact ⟨ho, i, hdec, connected_iff.1 ⟨net, hs, hp⟩⟩
  · rintro ⟨ho, i, hi, hp⟩
    obtain ⟨net, hs, hp⟩ := connected_iff.2 hp
    refine ⟨i, net, d, ?_, hs, hp, ho⟩
    rw [decode_accepts hd, slavePort_eq]
    exact hi

/-- **Routing and wiring**: an address that the decoder accepts in the window of a device goes to a port that
is connected to a device that owns it, exactly if it is wired. -/
theorem routing_agrees (b : Builder) (c : Counts) (id : Fin c.numMasters) (address : Nat) (d : Device)
    (hd : d.accepts address = true) : Agrees b c id address ↔ Wired b c id address d := by
  rw [agrees_iff hd]
  constructor
  · rintro ⟨ho, hi⟩
    exact (ids_wired ho).1 hi
  · intro hw
    have ho := owns_of_wired hd hw
    exact ⟨ho, (ids_wired ho).2 hw⟩

/-- Within the HWS, a wired address reaches the port whose number is in its low byte: the programming ports
come first, as the addresses in hws_support.c have it. -/
theorem hws_port {id : Fin c.numMasters} {address : Nat} {i : Fin (numSlaves b c)} {net : Net}
    (hd : Device.hws.accepts address = true) (hw : Wired b c id address .hws)
    (hdec : Pic.decode (numSlaves b c) PIC_ID id address = some i) (hs : (i.val, net) ∈ picSlaves b c) :
    net = if Pic.getHWSPort address < c.nPrgPorts then .hwsPrgPort (Pic.getHWSPort address)
      else .hwsSlvPort (Pic.getHWSPort address - c.nPrgPorts) := by
  rw [decode_accepts hd, slavePort_eq] at hdec
  have hw : Pic.getHWSPort address < c.nPrgPorts + c.nSlvPorts := hw
  have hi : i.val = c.nCores + 2 + Pic.getHWSPort address := by
    simp only [Device.ids, Counts.numMasters] at hdec
    omega
  rw [hi] at hs
  cases b <;> simp [picSlaves, Counts.nHwsPorts] at hs <;> grind

/-- Four cores, and the HWS ports of config.h. -/
def fourCores : Counts := ⟨4, 1, 1⟩

theorem routing_agrees_sem :
    Agrees .prv fourCores ⟨0, by decide⟩ CL_SEM_BASE ↔ Wired .prv fourCores 0 CL_SEM_BASE .semaphore :=
  routing_agrees .prv fourCores ⟨0, by decide⟩ CL_SEM_BASE .semaphore (by decide +kernel)

/-- **The shared cache**: a read of a semaphore goes to the programming port of the HWS. -/
theorem not_agrees_sem : ¬ Agrees .shr fourCores ⟨0, by decide⟩ CL_SEM_BASE := by
  intro h
  obtain ⟨-, i, hi, hp⟩ := (agrees_iff (d := .semaphore) (by decide +kernel)).1 h
  have hi' : (i : Int) = 6 := by rw [← hi]; rfl
  have hp' : i.val = 8 := hp
  omega

end VirtualSoc.Platform

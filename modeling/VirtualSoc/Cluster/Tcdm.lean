import Mathlib.Tactic.Ring
import VirtualSoc.Lib.Loop
import VirtualSoc.Core.Bus

/-!
# The banks of the TCDM (cluster/cl_lic.cpp, cl_memory.h, cl_platform_prv.h, cl_platform_shr.h, core/mem_class.cpp)

The words of the TCDM are dealt out to `N_CL_BANKS` banks in turn. The local interconnect computes the bank
of an address (`GetTcdmBankId`), the bank the place within it (`get_local_bank_addr`), and the platform
counts the banks as it loads the initialised data of the program (`load_tcdm_init_data`).

`flatten` is the memory that the banks stand for. Each access to the banks is the same access to it
(`serve_flatten`), and so are runs of them. The loader only loads what the image has from `CL_LOCAL_SHARED_OFFSET`
on (`load_flatten`), and leaves the arrays of the banks where the number of its words comes out wrong (`load_none`);
`loaderRight_iff` says which images it loads. `tcdm_flat` puts these together.
-/

namespace VirtualSoc.Tcdm

open MemClass

def CL_LOCAL_SHARED_SIZE : Nat := 0x00020000

/-- config.h:67. -/
def CL_LOCAL_SHARED_OFFSET : Nat := CL_TCDM_SIZE - CL_LOCAL_SHARED_SIZE

/-- `CL_TCDM_BANK_SIZE`. -/
def bankSize (N : Nat) : Nat := CL_TCDM_SIZE / N

abbrev Banks (N : Nat) := Fin N → MemClass

section Model

variable {N : Nat} [NeZero N]

/-- The bank of an address (cl_lic.cpp:13). -/
def bank (N : Nat) [NeZero N] (address : Nat) : Fin N := ⟨getTcdmBankId N address, Nat.mod_lt _ (NeZero.pos N)⟩

/-- An access that a core makes, and its width. -/
inductive Access
  | read (address bw : Nat)
  | write (address : Nat) (data : UInt32) (bw : Nat)

/-- `cl_memory::Read` and `Write` of the bank that the interconnect chooses. -/
def serve (banks : Banks N) : Access → Option (Banks N × Option UInt32)
  | .read address bw =>
    ((banks (bank N address)).read (bankAddressing N address) bw).map fun data => (banks, some data)
  | .write address data bw =>
    ((banks (bank N address)).write (bankAddressing N address) data bw).map fun m =>
      (Function.update banks (bank N address) m, none)

/-- The same access to one memory of the size of the TCDM. -/
def serveFlat (mem : MemClass) : Access → Option (MemClass × Option UInt32)
  | .read address bw => (mem.read (address - CL_TCDM_BASE) bw).map fun data => (mem, some data)
  | .write address data bw => (mem.write (address - CL_TCDM_BASE) data bw).map fun m => (m, none)

/-- The accesses one after the other, with the words that the reads return. -/
def serveAll {σ : Type} (serve : σ → Access → Option (σ × Option UInt32)) : σ → List Access → Option (σ × List UInt32)
  | s, [] => some (s, [])
  | s, x :: xs => (serve s x).bind fun (t, r) => (serveAll serve t xs).map fun (u, rs) => (u, r.toList ++ rs)

/-- An address of the TCDM, aligned to the width of the access. -/
def AlignedAt (address bw : Nat) : Prop :=
  demuxIsInTcdmSpace address = true ∧
    (bw = MEM_WORD ∧ address % 4 = 0 ∨ bw = MEM_BYTE ∨ bw = MEM_HWORD ∧ address % 2 = 0)

def Access.Aligned : Access → Prop
  | .read address bw => AlignedAt address bw
  | .write address _ bw => AlignedAt address bw

/-- `load_tcdm_init_data` (mem_class.cpp:33): `read` gives what there is of the word in the image, and writes it
into the array of the bank. The places are `unsigned int`. -/
def loadTcdmInitData (N : Nat) (image m : MemClass) (i startAddr offset : Nat) : Option MemClass :=
  if image.size ≤ startAddr then some m
  else
    let pos := (startAddr + offset + i * CL_WORD) % 2 ^ 32
    let addr := getLocalBankAddr ((offset + i * CL_WORD) % 2 ^ 32) (nBitShift N)
    let len := min CL_WORD (image.size - pos)
    if len = 0 then some m
    else if addr + len ≤ m.size then
      some { m with bytes := fun k => if addr ≤ k ∧ k < addr + len then image.bytes (pos + (k - addr)) else m.bytes k }
    else none

/-- The platforms of main.cpp: with private instruction caches, or with a shared one. -/
inductive Platform
  | prv
  | shr
deriving DecidableEq, Repr

/-- `tcdm_words`, which is an `int` (cl_platform_prv.h:340, cl_platform_shr.h:345). -/
def tcdmWords (image : MemClass) : Int := Int.tdiv (image.size - CL_TCDM_BASE - CL_LOCAL_SHARED_OFFSET) 4

/-- How often the loop runs: it compares with `tcdm_words` (cl_platform_prv.h:342) or with `(unsigned int)tcdm_words`
(cl_platform_shr.h:347). -/
def Platform.iterations (words : Int) : Platform → Nat
  | .prv => words.toNat
  | .shr => (words % 2 ^ 32).toNat

/-- One iteration of the loop of the platform; `bc` counts the banks. -/
def loadWord (image : MemClass) (x : Banks N × Fin N) (i : Nat) : Option (Banks N × Fin N) :=
  (loadTcdmInitData N image (x.1 x.2) i CL_TCDM_BASE CL_LOCAL_SHARED_OFFSET).map fun m =>
    (Function.update x.1 x.2 m, ⟨(x.2.val + 1) % N, Nat.mod_lt _ (NeZero.pos N)⟩)

/-- cl_platform_prv.h:327, cl_platform_shr.h:332. -/
def load (p : Platform) (image : MemClass) (banks : Banks N) : Option (Banks N) :=
  if image.size > CL_TCDM_BASE then
    ((List.range (p.iterations (tcdmWords image))).foldlM (loadWord image) (banks, 0)).map Prod.fst
  else some banks

/-- The banks before the program is loaded. -/
def fresh (N : Nat) : Banks N := fun _ => .new (bankSize N)

/-- What the banks hold as one memory. -/
def flatten (banks : Banks N) : MemClass where
  size := CL_TCDM_SIZE
  bytes k :=
    if k < CL_TCDM_SIZE then (banks (bank N (CL_TCDM_BASE + k))).bytes (bankAddressing N (CL_TCDM_BASE + k)) else 0

end Model

/-- A number of banks for which the interleaving works out: a power of two that divides the segments of the
TCDM into equal shares of whole words. -/
structure Geometry (N : Nat) : Prop where
  pow : ∃ k, N = 2 ^ k
  base : N * CL_WORD ∣ CL_TCDM_BASE
  size : N * CL_WORD ∣ CL_TCDM_SIZE
  offset : N * CL_WORD ∣ CL_LOCAL_SHARED_OFFSET

/-- A program as the file `prog`: the byte `a` of the file is that of the address `a`. -/
structure Image extends MemClass where
  addressed : size ≤ 2 ^ 32

/-- `a` is the address of a word of the image in the TCDM. -/
def Image.HasWord (image : Image) (a : Nat) : Prop :=
  demuxIsInTcdmSpace a = true ∧ a % 4 = 0 ∧ a + 4 ≤ image.size

/-- The loader puts each word of the image where a load of its address finds it. -/
def LoaderRight (N : Nat) [NeZero N] (p : Platform) (image : Image) : Prop :=
  ∃ banks', load p image.toMemClass (fresh N) = some banks' ∧
    ∀ a, image.HasWord a → serve banks' (.read a MEM_WORD) = some (banks', some (image.word a))

/-- The image does not go on beyond the TCDM; with a shared cache it does not end in the part of it below
`CL_LOCAL_SHARED_OFFSET` either; and it has only zeros in that part. -/
structure Loadable (p : Platform) (image : Image) : Prop where
  fits : image.size < CL_TCDM_BASE + CL_TCDM_SIZE + 4
  reaches : p = .shr → CL_TCDM_BASE < image.size → CL_TCDM_BASE + CL_LOCAL_SHARED_OFFSET < image.size + 4
  zeros : ∀ a, image.HasWord a → a < CL_TCDM_BASE + CL_LOCAL_SHARED_OFFSET → image.word a = 0

/-- The banks as the platform builds them. -/
def Sized {N : Nat} (banks : Banks N) : Prop := ∀ b, (banks b).size = bankSize N

theorem Sized.update {N : Nat} {banks : Banks N} (hs : Sized banks) (b : Fin N) {m : MemClass}
    (hm : m.size = bankSize N) : Sized (Function.update banks b m) := by
  intro b'
  by_cases hb : b' = b
  · subst hb
    rw [Function.update_self]
    exact hm
  · rw [Function.update_of_ne hb]
    exact hs b'

/-! ## The place of an address -/

variable {N : Nat} [NeZero N] {x y k : Nat} {banks : Banks N}

theorem Geometry.words (h : Geometry N) : ∃ m, CL_TCDM_SIZE = N * m * 4 ∧ bankSize N = m * 4 := by
  obtain ⟨m, hm⟩ := h.size
  have hsize : CL_TCDM_SIZE = N * m * 4 := by
    rw [hm, CL_WORD]
    ring
  refine ⟨m, hsize, ?_⟩
  rw [bankSize, hsize, Nat.mul_assoc, Nat.mul_div_cancel_left _ (NeZero.pos N)]

theorem Geometry.log2 (h : Geometry N) : 2 ^ Nat.log2 N = N := by
  obtain ⟨k, rfl⟩ := h.pow
  rw [Nat.log2_two_pow]

theorem in_tcdm (hx : x < CL_TCDM_SIZE) : demuxIsInTcdmSpace (CL_TCDM_BASE + x) = true :=
  decide_eq_true ⟨Nat.le_add_right _ x, Nat.add_lt_add_left hx _⟩

/-- The banks take turns at the words of the TCDM. -/
theorem Geometry.bank_eq (h : Geometry N) (x : Nat) : (bank N (CL_TCDM_BASE + x)).val = x / 4 % N := by
  obtain ⟨m, hm⟩ := h.base
  change (CL_TCDM_BASE + x) / CL_WORD % N = _
  rw [hm, CL_WORD, Nat.mul_right_comm, Nat.add_comm, Nat.add_mul_div_right _ _ (by decide), Nat.add_mul_mod_self_left]

/-- In its bank, a word lies after those of earlier turns. -/
theorem Geometry.addressing_eq (h : Geometry N) (hx : x < CL_TCDM_SIZE) :
    bankAddressing N (CL_TCDM_BASE + x) = x / 4 / N * 4 + x % 4 := by
  rw [bankAddressing_eq (in_tcdm hx), h.log2, Nat.add_sub_cancel_left]
  have : CL_TCDM_BASE % 4 = 0 := by decide
  omega

theorem Geometry.local_lt (h : Geometry N) (hx : x < CL_TCDM_SIZE) : x / 4 / N * 4 + x % 4 < bankSize N := by
  obtain ⟨m, hsize, hbank⟩ := h.words
  have hw : x / 4 < N * m := by omega
  have := Nat.div_lt_of_lt_mul hw
  omega

omit [NeZero N] in
/-- Two places of one word of a bank are places of one word of the TCDM. -/
theorem same_word (hbank : x / 4 % N = y / 4 % N) (hlocal : x / 4 / N = y / 4 / N) : x / 4 = y / 4 := by
  rw [← Nat.div_add_mod (x / 4) N, ← Nat.div_add_mod (y / 4) N, hbank, hlocal]

/-- What a bank writes within a word, and what of the TCDM that is. -/
theorem Geometry.window (h : Geometry N) (hx : x < CL_TCDM_SIZE) (hy : y < CL_TCDM_SIZE) (hk : x % 4 + k ≤ 4) :
    bank N (CL_TCDM_BASE + y) = bank N (CL_TCDM_BASE + x) ∧
        bankAddressing N (CL_TCDM_BASE + x) ≤ bankAddressing N (CL_TCDM_BASE + y) ∧
        bankAddressing N (CL_TCDM_BASE + y) < bankAddressing N (CL_TCDM_BASE + x) + k ↔ x ≤ y ∧ y < x + k := by
  rw [Fin.ext_iff, h.bank_eq, h.bank_eq, h.addressing_eq hx, h.addressing_eq hy]
  constructor
  · rintro ⟨hbank, hle, hlt⟩
    have hword := same_word hbank (show y / 4 / N = x / 4 / N by omega)
    rw [hword] at hle hlt
    omega
  · rintro ⟨hle, hlt⟩
    have hword : y / 4 = x / 4 := by omega
    rw [hword]
    exact ⟨rfl, by omega, by omega⟩

/-- Within a word the place moves with the address. -/
theorem Geometry.within (h : Geometry N) (hx : x < CL_TCDM_SIZE) (hk : x % 4 + k < 4) :
    bank N (CL_TCDM_BASE + (x + k)) = bank N (CL_TCDM_BASE + x) ∧
      bankAddressing N (CL_TCDM_BASE + (x + k)) = bankAddressing N (CL_TCDM_BASE + x) + k := by
  obtain ⟨m, hsize, -⟩ := h.words
  have hword : (x + k) / 4 = x / 4 := by omega
  rw [Fin.ext_iff, h.bank_eq, h.bank_eq, h.addressing_eq hx, h.addressing_eq (by omega), hword]
  omega

/-! ## One access -/

theorem flatten_bytes (hx : x < CL_TCDM_SIZE) : (flatten banks).bytes x =
    (banks (bank N (CL_TCDM_BASE + x))).bytes (bankAddressing N (CL_TCDM_BASE + x)) := by
  exact if_pos hx

/-- A store within a word of a bank is a store within a word of the TCDM. -/
theorem Geometry.flatten_store (h : Geometry N) (hx : x < CL_TCDM_SIZE) (hk : x % 4 + k ≤ 4) (v : UInt32) :
    flatten (Function.update banks (bank N (CL_TCDM_BASE + x))
        ((banks (bank N (CL_TCDM_BASE + x))).store (bankAddressing N (CL_TCDM_BASE + x)) k v)) =
      (flatten banks).store x k v := by
  ext y
  · rfl
  · rw [bytes_store]
    by_cases hy : y < CL_TCDM_SIZE
    · have hwindow := h.window hx hy hk
      rw [flatten_bytes hy, flatten_bytes hy]
      by_cases hb : bank N (CL_TCDM_BASE + y) = bank N (CL_TCDM_BASE + x)
      · rw [hb, Function.update_self, bytes_store]
        simp only [hb, true_and] at hwindow
        by_cases hin : x ≤ y ∧ y < x + k
        · rw [if_pos (hwindow.2 hin), if_pos hin]
          obtain ⟨j, rfl⟩ := Nat.exists_eq_add_of_le hin.1
          rw [(h.within hx (by omega)).2, Nat.add_sub_cancel_left, Nat.add_sub_cancel_left]
        · rw [if_neg fun hin' => hin (hwindow.1 hin'), if_neg hin]
      · rw [Function.update_of_ne hb, if_neg fun hin => hb (hwindow.2 hin).1]
    · obtain ⟨m, hsize, -⟩ := h.words
      rw [if_neg (by omega)]
      simp only [flatten, if_neg hy]

theorem byte_word (m : MemClass) (a : Nat) : m.word a &&& 0x000000FF = UInt32.ofNat (m.bytes a).toNat := by
  have h0 := (m.bytes a).toNat_lt
  apply UInt32.toNat_inj.1
  rw [and_byte, word_toNat, UInt32.toNat_ofNat']
  omega

theorem half_word (m : MemClass) (a : Nat) :
    m.word a &&& 0x0000FFFF = UInt32.ofNat ((m.bytes a).toNat + 256 * (m.bytes (a + 1)).toNat) := by
  have h0 := (m.bytes a).toNat_lt
  have h1 := (m.bytes (a + 1)).toNat_lt
  apply UInt32.toNat_inj.1
  rw [and_half, word_toNat, UInt32.toNat_ofNat']
  omega

theorem Geometry.flatten_within (h : Geometry N) (hx : x < CL_TCDM_SIZE) (hk : x % 4 + k < 4) :
    (flatten banks).bytes (x + k) =
      (banks (bank N (CL_TCDM_BASE + x))).bytes (bankAddressing N (CL_TCDM_BASE + x) + k) := by
  obtain ⟨m, hsize, -⟩ := h.words
  obtain ⟨hb, ha⟩ := h.within hx hk
  rw [flatten_bytes (by omega), hb, ha]

theorem AlignedAt.offset {address bw : Nat} (h : AlignedAt address bw) :
    ∃ x, address = CL_TCDM_BASE + x ∧ x < CL_TCDM_SIZE ∧
      (bw = MEM_WORD ∧ x % 4 = 0 ∨ bw = MEM_BYTE ∨ bw = MEM_HWORD ∧ x % 2 = 0) := by
  obtain ⟨hlo, hhi⟩ := of_decide_eq_true h.1
  obtain ⟨x, rfl⟩ := Nat.exists_eq_add_of_le hlo
  have hbase : CL_TCDM_BASE % 4 = 0 := by decide
  refine ⟨x, rfl, by omega, ?_⟩
  obtain ⟨hbw, hmod⟩ | hbw | ⟨hbw, hmod⟩ := h.2
  · exact Or.inl ⟨hbw, by omega⟩
  · exact Or.inr (Or.inl hbw)
  · exact Or.inr (Or.inr ⟨hbw, by omega⟩)

/-- The local address is in its bank, and aligned as the address is. -/
theorem Geometry.addressing_spec (h : Geometry N) (hs : Sized banks) (hx : x < CL_TCDM_SIZE) :
    ¬ bankAddressing N (CL_TCDM_BASE + x) ≥ (banks (bank N (CL_TCDM_BASE + x))).size ∧
      bankAddressing N (CL_TCDM_BASE + x) % 4 = x % 4 := by
  rw [hs, h.addressing_eq hx]
  exact ⟨Nat.not_le_of_lt (h.local_lt hx), by omega⟩

theorem Geometry.read_flatten (h : Geometry N) (hs : Sized banks) {address bw : Nat} (ha : AlignedAt address bw) :
    ∃ r, serve banks (.read address bw) = some (banks, r) ∧
      serveFlat (flatten banks) (.read address bw) = some (flatten banks, r) := by
  obtain ⟨x, rfl, hx, hbw⟩ := ha.offset
  obtain ⟨hlt, hlocal⟩ := h.addressing_spec hs hx
  have hlt' : ¬ x ≥ (flatten banks).size := Nat.not_le_of_lt hx
  simp only [serve, serveFlat, Nat.add_sub_cancel_left]
  unfold MemClass.read
  rw [if_neg hlt, if_neg hlt']
  obtain ⟨rfl, hal⟩ | rfl | ⟨rfl, hal⟩ := hbw
  · have hword : (flatten banks).word x =
        (banks (bank N (CL_TCDM_BASE + x))).word (bankAddressing N (CL_TCDM_BASE + x)) := by
      have hbyte : ∀ k < 4, (flatten banks).bytes (x + k) =
          (banks (bank N (CL_TCDM_BASE + x))).bytes (bankAddressing N (CL_TCDM_BASE + x) + k) :=
        fun k hk => h.flatten_within hx (by omega)
      rw [MemClass.word, MemClass.word, hbyte 1 (by decide), hbyte 2 (by decide), hbyte 3 (by decide),
        flatten_bytes hx]
    rw [if_pos rfl, if_pos rfl, wordAlign_self hal, wordAlign_self (hlocal.trans hal), hword]
    exact ⟨_, rfl, rfl⟩
  · simp only [show ¬ MEM_BYTE = MEM_WORD by decide, if_false, if_true, byte_word]
    rw [flatten_bytes hx]
    exact ⟨_, rfl, rfl⟩
  · have h1 : (flatten banks).bytes (x + 1) =
        (banks (bank N (CL_TCDM_BASE + x))).bytes (bankAddressing N (CL_TCDM_BASE + x) + 1) :=
      h.flatten_within hx (by omega)
    simp only [show ¬ MEM_HWORD = MEM_WORD by decide, show ¬ MEM_HWORD = MEM_BYTE by decide, if_false, if_true,
      half_word]
    rw [h1, flatten_bytes hx]
    exact ⟨_, rfl, rfl⟩

theorem Geometry.write_flatten (h : Geometry N) (hs : Sized banks) {address bw : Nat} {data : UInt32}
    (ha : AlignedAt address bw) :
    ∃ banks' r, serve banks (.write address data bw) = some (banks', r) ∧ Sized banks' ∧
      serveFlat (flatten banks) (.write address data bw) = some (flatten banks', r) := by
  obtain ⟨x, rfl, hx, hbw⟩ := ha.offset
  obtain ⟨hlt, hlocal⟩ := h.addressing_spec hs hx
  have hlt' : ¬ x ≥ (flatten banks).size := Nat.not_le_of_lt hx
  simp only [serve, serveFlat, Nat.add_sub_cancel_left]
  unfold MemClass.write
  rw [if_neg hlt, if_neg hlt']
  obtain ⟨rfl, hal⟩ | rfl | ⟨rfl, hal⟩ := hbw
  · rw [if_pos rfl, if_pos rfl, wordAlign_self hal, wordAlign_self (hlocal.trans hal), Option.map_some,
      Option.map_some, ← h.flatten_store hx (by omega)]
    exact ⟨_, _, rfl, hs.update _ ((size_store _ _ _ _).trans (hs _)), rfl⟩
  · simp only [show ¬ MEM_BYTE = MEM_WORD by decide, if_false, if_true, Option.map_some]
    rw [← h.flatten_store hx (by omega)]
    exact ⟨_, _, rfl, hs.update _ ((size_store _ _ _ _).trans (hs _)), rfl⟩
  · have hx' : hwordAlign x = x := by
      unfold hwordAlign
      omega
    have hl' : hwordAlign (bankAddressing N (CL_TCDM_BASE + x)) = bankAddressing N (CL_TCDM_BASE + x) := by
      unfold hwordAlign
      omega
    simp only [show ¬ MEM_HWORD = MEM_WORD by decide, show ¬ MEM_HWORD = MEM_BYTE by decide, if_false, if_true,
      Option.map_some, hx', hl']
    rw [← h.flatten_store hx (by omega)]
    exact ⟨_, _, rfl, hs.update _ ((size_store _ _ _ _).trans (hs _)), rfl⟩

/-- **Each aligned access** to the banks has an outcome, and is the same access to the memory that they stand for. -/
theorem Geometry.serve_flatten (h : Geometry N) (hs : Sized banks) {access : Access} (ha : access.Aligned) :
    ∃ banks' r, serve banks access = some (banks', r) ∧ Sized banks' ∧
      serveFlat (flatten banks) access = some (flatten banks', r) := by
  cases access with
  | read address bw =>
    obtain ⟨r, hread, hflat⟩ := h.read_flatten hs ha
    exact ⟨banks, r, hread, hs, hflat⟩
  | write address data bw => exact h.write_flatten hs ha

/-! ## Runs and the loader -/

theorem Geometry.serveAll_flatten (h : Geometry N) {accesses : List Access} (hs : Sized banks)
    (ha : ∀ access ∈ accesses, access.Aligned) : ∃ banks' words, serveAll serve banks accesses = some (banks', words) ∧
      serveAll serveFlat (flatten banks) accesses = some (flatten banks', words) := by
  induction accesses generalizing banks with
  | nil => exact ⟨banks, [], rfl, rfl⟩
  | cons access accesses ih =>
    obtain ⟨banks₁, r, h₁, hs₁, hf₁⟩ := h.serve_flatten hs (ha access List.mem_cons_self)
    obtain ⟨banks₂, words, h₂, hf₂⟩ := ih hs₁ fun access' h' => ha access' (List.mem_cons_of_mem access h')
    refine ⟨banks₂, r.toList ++ words, ?_, ?_⟩
    · simp only [serveAll, h₁, Option.bind_some, h₂, Option.map_some]
    · simp only [serveAll, hf₁, Option.bind_some, hf₂, Option.map_some]

/-- The places that the loader computes are those of the address: below the end of the TCDM nothing wraps. -/
theorem Geometry.load_place (h : Geometry N) {i : Nat} (hi : CL_LOCAL_SHARED_OFFSET + 4 * i < CL_TCDM_SIZE) :
    (CL_TCDM_BASE + CL_LOCAL_SHARED_OFFSET + i * CL_WORD) % 2 ^ 32 = CL_TCDM_BASE + CL_LOCAL_SHARED_OFFSET + 4 * i ∧
      getLocalBankAddr ((CL_LOCAL_SHARED_OFFSET + i * CL_WORD) % 2 ^ 32) (nBitShift N) =
        bankAddressing N (CL_TCDM_BASE + (CL_LOCAL_SHARED_OFFSET + 4 * i)) ∧
      (bank N (CL_TCDM_BASE + (CL_LOCAL_SHARED_OFFSET + 4 * i))).val = i % N := by
  have hend : CL_TCDM_BASE + CL_TCDM_SIZE < 2 ^ 32 := by decide
  rw [CL_WORD, Nat.mul_comm i]
  refine ⟨Nat.mod_eq_of_lt (by omega), ?_, ?_⟩
  · rw [bankAddressing, show CL_TCDM_BASE + (CL_LOCAL_SHARED_OFFSET + 4 * i) + 2 ^ 32 - CL_TCDM_BASE =
      CL_LOCAL_SHARED_OFFSET + 4 * i + 2 ^ 32 by omega, Nat.add_mod_right]
  · obtain ⟨m, hm⟩ := h.offset
    rw [h.bank_eq, Nat.add_mul_div_left _ _ (by decide), hm, CL_WORD, Nat.mul_right_comm,
      Nat.mul_div_cancel _ (by decide), Nat.mul_add_mod]

/-- Before iteration `i` of the loop. -/
def Loading (i : Nat) (x : Banks N × Fin N) : Prop := Sized x.1 ∧ x.2.val = i % N

theorem fresh_loading : Loading 0 (fresh N, 0) := ⟨fun _ => rfl, (Nat.zero_mod N).symm⟩

theorem Loading.next {i : Nat} {bc : Fin N} (h : Loading i (banks, bc)) {m : MemClass} (hm : m.size = bankSize N) :
    Loading (i + 1) (Function.update banks bc m, (⟨(bc.val + 1) % N, Nat.mod_lt _ (NeZero.pos N)⟩ : Fin N)) := by
  refine ⟨h.1.update bc hm, ?_⟩
  change (bc.val + 1) % N = _
  rw [h.2, Nat.mod_add_mod]

variable {image : MemClass} {bc : Fin N} {i : Nat}

/-- One word of the image goes to the bank and the place of its address. -/
theorem Geometry.loadWord_stores (h : Geometry N) (image : MemClass) (hl : Loading i (banks, bc))
    (hi : CL_LOCAL_SHARED_OFFSET + 4 * i < CL_TCDM_SIZE)
    (himage : CL_TCDM_BASE + CL_LOCAL_SHARED_OFFSET + 4 * i + 4 ≤ image.size) :
    ∃ y, loadWord image (banks, bc) i = some y ∧ Loading (i + 1) y ∧
      flatten y.1 = (flatten banks).store (CL_LOCAL_SHARED_OFFSET + 4 * i) 4
        (image.word (CL_TCDM_BASE + CL_LOCAL_SHARED_OFFSET + 4 * i)) := by
  obtain ⟨hpos, hplace, hbank⟩ := h.load_place hi
  have hoff : CL_LOCAL_SHARED_OFFSET % 4 = 0 := by decide
  obtain rfl : bc = bank N (CL_TCDM_BASE + (CL_LOCAL_SHARED_OFFSET + 4 * i)) := Fin.ext (hl.2.trans hbank.symm)
  have hlocal := h.addressing_eq hi
  have hlt := h.local_lt hi
  obtain ⟨m, hsize, hbankSize⟩ := h.words
  have hload : loadTcdmInitData N image (banks (bank N (CL_TCDM_BASE + (CL_LOCAL_SHARED_OFFSET + 4 * i)))) i
      CL_TCDM_BASE CL_LOCAL_SHARED_OFFSET =
        some ((banks (bank N (CL_TCDM_BASE + (CL_LOCAL_SHARED_OFFSET + 4 * i)))).store
          (bankAddressing N (CL_TCDM_BASE + (CL_LOCAL_SHARED_OFFSET + 4 * i))) 4
            (image.word (CL_TCDM_BASE + CL_LOCAL_SHARED_OFFSET + 4 * i))) := by
    have hlen : min CL_WORD (image.size - (CL_TCDM_BASE + CL_LOCAL_SHARED_OFFSET + 4 * i)) = 4 := by
      unfold CL_WORD
      omega
    unfold loadTcdmInitData
    simp only [hpos, hlen, hplace]
    rw [if_neg (by omega), if_neg (by decide), hl.1, if_pos (by omega)]
    refine congrArg some (MemClass.ext ((size_store _ _ _ _).trans (hl.1 _)).symm fun k => ?_)
    rw [bytes_store]
    dsimp only
    split
    · rw [word_byte image _ (by omega)]
    · rfl
  refine ⟨_, by rw [loadWord, hload, Option.map_some], hl.next ((size_store _ _ _ _).trans (hl.1 _)), ?_⟩
  exact h.flatten_store hi (by omega) _

/-- Beyond the end of the image nothing is read. -/
theorem loadWord_beyond (hl : Loading i (banks, bc))
    (hpos : image.size ≤ (CL_TCDM_BASE + CL_LOCAL_SHARED_OFFSET + i * CL_WORD) % 2 ^ 32) :
    ∃ y, loadWord image (banks, bc) i = some y ∧ Loading (i + 1) y := by
  have hload : loadTcdmInitData N image (banks bc) i CL_TCDM_BASE CL_LOCAL_SHARED_OFFSET = some (banks bc) := by
    have hlen : min CL_WORD (image.size - (CL_TCDM_BASE + CL_LOCAL_SHARED_OFFSET + i * CL_WORD) % 2 ^ 32) = 0 := by
      rw [Nat.sub_eq_zero_of_le hpos, Nat.min_zero]
    unfold loadTcdmInitData
    simp only [hlen, if_true, ite_self]
  exact ⟨_, by rw [loadWord, hload, Option.map_some], hl.next (hl.1 bc)⟩

/-- A word that is read for a place beyond the TCDM is written beyond the array of its bank. -/
theorem Geometry.loadWord_outside (h : Geometry N) (hl : Loading i (banks, bc)) (himage : CL_TCDM_BASE < image.size)
    (hpos : (CL_TCDM_BASE + CL_LOCAL_SHARED_OFFSET + i * CL_WORD) % 2 ^ 32 < image.size)
    (hplace : CL_TCDM_SIZE ≤ (CL_LOCAL_SHARED_OFFSET + i * CL_WORD) % 2 ^ 32) :
    loadWord image (banks, bc) i = none := by
  obtain ⟨m, hsize, hbank⟩ := h.words
  have houtside : bankSize N ≤ getLocalBankAddr ((CL_LOCAL_SHARED_OFFSET + i * CL_WORD) % 2 ^ 32) (nBitShift N) := by
    generalize (CL_LOCAL_SHARED_OFFSET + i * CL_WORD) % 2 ^ 32 = place at hplace
    have hturn : m ≤ place / (N * 2 ^ 2) := by
      rw [Nat.le_div_iff_mul_le (Nat.mul_pos (NeZero.pos N) (by decide))]
      calc m * (N * 2 ^ 2) = N * m * 4 := by ring
        _ ≤ place := hsize ▸ hplace
    rw [getLocalBankAddr, nBitShift, Nat.shiftRight_eq_div_pow, Nat.pow_add, h.log2, hbank, CL_WORD]
    exact Nat.le_trans (Nat.mul_le_mul_right 4 hturn) (Nat.le_add_right _ _)
  have hlen : 0 < min CL_WORD (image.size - (CL_TCDM_BASE + CL_LOCAL_SHARED_OFFSET + i * CL_WORD) % 2 ^ 32) :=
    Nat.lt_min.2 ⟨by decide, Nat.sub_pos_of_lt hpos⟩
  have hload : loadTcdmInitData N image (banks bc) i CL_TCDM_BASE CL_LOCAL_SHARED_OFFSET = none := by
    unfold loadTcdmInitData
    simp only
    rw [if_neg (Nat.not_le_of_lt himage), if_neg (Nat.ne_of_gt hlen), if_neg]
    rw [hl.1]
    omega
  rw [loadWord, hload, Option.map_none]

/-- The loop of the platform comes to a word that is written beyond the array. -/
theorem Geometry.loop_none (h : Geometry N) {n stop : Nat} (hstop : stop < n) (himage : CL_TCDM_BASE < image.size)
    (hbefore : ∀ i < stop, ∀ x : Banks N × Fin N, Loading i x → ∃ y, loadWord image x i = some y ∧ Loading (i + 1) y)
    (hpos : (CL_TCDM_BASE + CL_LOCAL_SHARED_OFFSET + stop * CL_WORD) % 2 ^ 32 < image.size)
    (hplace : CL_TCDM_SIZE ≤ (CL_LOCAL_SHARED_OFFSET + stop * CL_WORD) % 2 ^ 32) :
    (List.range n).foldlM (loadWord image) (fresh N, 0) = none := by
  refine Loop.range_none (I := fun i x => i ≤ stop ∧ Loading i x) (P := fun i => i < stop)
    ⟨Nat.zero_le stop, fresh_loading⟩ (fun i x _ hi hx => ?_) (fun i x _ hi hx => ?_)
    fun hall => absurd (hall stop hstop) (Nat.lt_irrefl stop)
  · obtain ⟨y, hy, hl⟩ := hbefore i hi x hx.2
    exact ⟨y, hy, hi, hl⟩
  · obtain rfl : i = stop := Nat.le_antisymm hx.1 (Nat.not_lt.1 hi)
    exact h.loadWord_outside hx.2 himage hpos hplace

theorem tcdmWords_of_le {image : MemClass} (h : CL_TCDM_BASE + CL_LOCAL_SHARED_OFFSET ≤ image.size) :
    tcdmWords image = ((image.size - CL_TCDM_BASE - CL_LOCAL_SHARED_OFFSET) / 4 : Nat) := by
  rw [tcdmWords, Int.tdiv_eq_ediv_of_nonneg (by omega)]
  omega

/-- The division truncates, and so goes up where the image ends below the offset. -/
theorem tcdmWords_of_lt {image : MemClass} (h : image.size < CL_TCDM_BASE + CL_LOCAL_SHARED_OFFSET) :
    tcdmWords image = -((CL_TCDM_BASE + CL_LOCAL_SHARED_OFFSET - image.size) / 4 : Nat) := by
  rw [tcdmWords, show (image.size - CL_TCDM_BASE - CL_LOCAL_SHARED_OFFSET : Int) =
    -((CL_TCDM_BASE + CL_LOCAL_SHARED_OFFSET - image.size : Nat) : Int) by omega, Int.neg_tdiv,
    Int.tdiv_eq_ediv_of_nonneg (by omega)]
  omega

theorem iterations_natCast (p : Platform) {n : Nat} (h : n < 2 ^ 32) : p.iterations n = n := by
  cases p with
  | prv => exact Int.toNat_natCast n
  | shr => rw [Platform.iterations, Int.emod_eq_of_lt (Int.natCast_nonneg n) (by exact_mod_cast h), Int.toNat_natCast]

/-- Where the number of words is not below 0, the loop runs as often. -/
theorem iterations_eq {p : Platform} {image : Image} (hlo : CL_TCDM_BASE < image.size)
    (hreaches : p = .shr → CL_TCDM_BASE < image.size → CL_TCDM_BASE + CL_LOCAL_SHARED_OFFSET < image.size + 4) :
    p.iterations (tcdmWords image.toMemClass) = (image.size - CL_TCDM_BASE - CL_LOCAL_SHARED_OFFSET) / 4 := by
  have haddressed := image.addressed
  rcases Nat.lt_or_ge image.size (CL_TCDM_BASE + CL_LOCAL_SHARED_OFFSET) with hlt | hge
  · rw [show (image.size - CL_TCDM_BASE - CL_LOCAL_SHARED_OFFSET) / 4 = 0 by omega, tcdmWords_of_lt hlt]
    cases p with
    | prv => exact Int.toNat_of_nonpos (Int.neg_nonpos_of_nonneg (Int.natCast_nonneg _))
    | shr =>
      have hnear := hreaches rfl hlo
      rw [show (CL_TCDM_BASE + CL_LOCAL_SHARED_OFFSET - image.size) / 4 = 0 by omega]
      rfl
  · rw [tcdmWords_of_le hge, iterations_natCast p (by omega)]

/-- **The loader writes beyond the banks** for an image that does not end in the TCDM. -/
theorem Geometry.load_long (h : Geometry N) {p : Platform} {image : Image}
    (himage : CL_TCDM_BASE + CL_TCDM_SIZE + 4 ≤ image.size) : load p image.toMemClass (fresh N) = none := by
  have hoff : CL_LOCAL_SHARED_OFFSET = 0x60000 := rfl
  have hsize : CL_TCDM_SIZE = 0x80000 := rfl
  have haddressed := image.addressed
  have hwords : 0x8000 < p.iterations (tcdmWords image.toMemClass) := by
    rw [iterations_eq (by omega) fun _ _ => by omega]
    omega
  have hloop : (List.range (p.iterations (tcdmWords image.toMemClass))).foldlM (loadWord image.toMemClass)
      (fresh N, 0) = none := by
    refine h.loop_none hwords (by omega) (fun i hi x hx => ?_) ?_ (by decide)
    · obtain ⟨y, hy, hl, -⟩ := h.loadWord_stores image.toMemClass hx (by omega) (by omega)
      exact ⟨y, hy, hl⟩
    · rw [show (CL_TCDM_BASE + CL_LOCAL_SHARED_OFFSET + 0x8000 * CL_WORD) % 2 ^ 32 = CL_TCDM_BASE + CL_TCDM_SIZE by
        decide]
      omega
  rw [load, if_pos (by omega), hloop, Option.map_none]

/-- With a shared cache, a number of words below 0 counts as one that the loop does not reach: when the place in the
image has wrapped to the beginning, the first word of it is written beyond the banks. -/
theorem Geometry.load_negative (h : Geometry N) {image : Image} (hlo : CL_TCDM_BASE < image.size)
    (hhi : image.size + 4 ≤ CL_TCDM_BASE + CL_LOCAL_SHARED_OFFSET) :
    load .shr image.toMemClass (fresh N) = none := by
  have hbase : CL_TCDM_BASE = 0x08000000 := rfl
  have hoff : CL_LOCAL_SHARED_OFFSET = 0x60000 := rfl
  have hwords : 0x3DFE8000 < Platform.iterations (tcdmWords image.toMemClass) .shr := by
    rw [tcdmWords_of_lt (by omega), Platform.iterations]
    omega
  have hloop : (List.range (Platform.iterations (tcdmWords image.toMemClass) .shr)).foldlM (loadWord image.toMemClass)
      (fresh N, 0) = none := by
    refine h.loop_none hwords hlo (fun i hi x hx => loadWord_beyond hx ?_) ?_ (by decide)
    · rw [CL_WORD, Nat.mod_eq_of_lt (by omega)]
      omega
    · rw [show (CL_TCDM_BASE + CL_LOCAL_SHARED_OFFSET + 0x3DFE8000 * CL_WORD) % 2 ^ 32 = 0 by decide]
      exact Nat.zero_lt_of_lt hlo
  rw [load, if_pos hlo, hloop, Option.map_none]

/-- **The loader** stores the words that the image has from `CL_LOCAL_SHARED_OFFSET` on, one after another, in the
memory that the banks stand for. -/
theorem Geometry.load_flatten (h : Geometry N) {p : Platform} {image : Image}
    (hfits : image.size < CL_TCDM_BASE + CL_TCDM_SIZE + 4)
    (hreaches : p = .shr → CL_TCDM_BASE < image.size → CL_TCDM_BASE + CL_LOCAL_SHARED_OFFSET < image.size + 4) :
    ∃ banks', load p image.toMemClass (fresh N) = some banks' ∧ Sized banks' ∧
      flatten banks' = stored (flatten (fresh N)) CL_LOCAL_SHARED_OFFSET
        (fun i => image.word (CL_TCDM_BASE + CL_LOCAL_SHARED_OFFSET + 4 * i))
        ((image.size - CL_TCDM_BASE - CL_LOCAL_SHARED_OFFSET) / 4) := by
  have hoff : CL_LOCAL_SHARED_OFFSET = 0x60000 := rfl
  have hsize : CL_TCDM_SIZE = 0x80000 := rfl
  by_cases hlo : CL_TCDM_BASE < image.size
  · have hwords : p.iterations (tcdmWords image.toMemClass) =
        (image.size - CL_TCDM_BASE - CL_LOCAL_SHARED_OFFSET) / 4 := iterations_eq hlo hreaches
    obtain ⟨y, hy, hl, hflat⟩ := Loop.range_some
      (I := fun i y => Loading i y ∧ flatten y.1 = stored (flatten (fresh N)) CL_LOCAL_SHARED_OFFSET
        (fun i => image.word (CL_TCDM_BASE + CL_LOCAL_SHARED_OFFSET + 4 * i)) i)
      (n := (image.size - CL_TCDM_BASE - CL_LOCAL_SHARED_OFFSET) / 4) (f := loadWord image.toMemClass)
      (s := (fresh N, 0)) ⟨fresh_loading, rfl⟩ fun i y hi hI => by
        obtain ⟨z, hz, hl, hflat⟩ := h.loadWord_stores image.toMemClass hI.1 (by omega) (by omega)
        exact ⟨z, hz, hl, by rw [hflat, hI.2, stored]⟩
    refine ⟨y.1, ?_, hl.1, hflat⟩
    rw [load, if_pos hlo, hwords, hy, Option.map_some]
  · refine ⟨fresh N, if_neg hlo, fun _ => rfl, ?_⟩
    rw [show (image.size - CL_TCDM_BASE - CL_LOCAL_SHARED_OFFSET) / 4 = 0 by omega, stored]

/-! ## What is loaded -/

theorem flatten_fresh (x : Nat) : (flatten (fresh N)).word x = 0 := by
  have hbytes : ∀ y, (flatten (fresh N)).bytes y = 0 := by
    intro y
    change (if y < CL_TCDM_SIZE then (0 : UInt8) else 0) = 0
    exact ite_self 0
  rw [MemClass.word, hbytes, hbytes, hbytes, hbytes]
  rfl

/-- A load of a word returns it from the memory that the banks stand for. -/
theorem Geometry.serve_word (h : Geometry N) (hs : Sized banks) {image : Image} {a : Nat} (ha : image.HasWord a) :
    serve banks (.read a MEM_WORD) = some (banks, some ((flatten banks).word (a - CL_TCDM_BASE))) := by
  obtain ⟨r, hr, hflat⟩ := h.read_flatten hs ⟨ha.1, Or.inl ⟨rfl, ha.2.1⟩⟩
  obtain ⟨hlo, hhi⟩ := of_decide_eq_true ha.1
  have hbase : CL_TCDM_BASE % 4 = 0 := by decide
  have hmod := ha.2.1
  rw [serveFlat, read_aligned (by omega) (Nat.sub_lt_left_of_lt_add hlo hhi), Option.map_some] at hflat
  obtain rfl : some _ = r := congrArg Prod.snd (Option.some.inj hflat)
  exact hr

/-- The words of the image from the offset on are loaded, the others are 0. -/
theorem loaded_word {image : Image} {a : Nat} (ha : image.HasWord a) :
    (stored (flatten (fresh N)) CL_LOCAL_SHARED_OFFSET
        (fun i => image.word (CL_TCDM_BASE + CL_LOCAL_SHARED_OFFSET + 4 * i))
        ((image.size - CL_TCDM_BASE - CL_LOCAL_SHARED_OFFSET) / 4)).word (a - CL_TCDM_BASE) =
      if a < CL_TCDM_BASE + CL_LOCAL_SHARED_OFFSET then 0 else image.word a := by
  obtain ⟨hin, hmod, hword⟩ := ha
  obtain ⟨hlo, hhi⟩ := of_decide_eq_true hin
  have hstart : (CL_TCDM_BASE + CL_LOCAL_SHARED_OFFSET) % 4 = 0 := by decide
  have hbase : CL_TCDM_BASE % 4 = 0 := by decide
  split
  · rw [stored_word_before (by omega), flatten_fresh]
  · obtain ⟨i, rfl⟩ : ∃ i, a = CL_TCDM_BASE + CL_LOCAL_SHARED_OFFSET + 4 * i :=
      ⟨(a - (CL_TCDM_BASE + CL_LOCAL_SHARED_OFFSET)) / 4, by omega⟩
    rw [show CL_TCDM_BASE + CL_LOCAL_SHARED_OFFSET + 4 * i - CL_TCDM_BASE = CL_LOCAL_SHARED_OFFSET + 4 * i by omega,
      stored_word (by omega)]

/-- **The images that are loaded right.** -/
theorem Geometry.loaderRight_iff (h : Geometry N) {p : Platform} {image : Image} :
    LoaderRight N p image ↔ Loadable p image := by
  constructor
  · rintro ⟨banks', hload, hread⟩
    have hfits : image.size < CL_TCDM_BASE + CL_TCDM_SIZE + 4 := by
      by_contra hlong
      rw [h.load_long (Nat.not_lt.1 hlong)] at hload
      cases hload
    have hreaches : p = .shr → CL_TCDM_BASE < image.size →
        CL_TCDM_BASE + CL_LOCAL_SHARED_OFFSET < image.size + 4 := by
      rintro rfl hlo
      by_contra hneg
      rw [h.load_negative hlo (Nat.not_lt.1 hneg)] at hload
      cases hload
    obtain ⟨banks'', hload', hs, hflat⟩ := h.load_flatten hfits hreaches
    obtain rfl : banks' = banks'' := Option.some.inj (hload.symm.trans hload')
    refine ⟨hfits, hreaches, fun a ha hlt => ?_⟩
    have hword := hread a ha
    rw [h.serve_word hs ha, hflat, loaded_word ha, if_pos hlt] at hword
    simpa using hword.symm
  · intro hl
    obtain ⟨banks', hload, hs, hflat⟩ := h.load_flatten hl.fits hl.reaches
    refine ⟨banks', hload, fun a ha => ?_⟩
    rw [h.serve_word hs ha, hflat, loaded_word ha]
    split
    · rw [hl.zeros a ha ‹_›]
    · rfl

/-! ## The interleaving -/

/-- Every place of every bank belongs to one address. -/
theorem Geometry.bijective (h : Geometry N) :
    Set.BijOn (fun a => (bank N a, bankAddressing N a)) {a | demuxIsInTcdmSpace a = true} {p | p.2 < bankSize N} := by
  have hsplit : ∀ a, demuxIsInTcdmSpace a = true → ∃ x, a = CL_TCDM_BASE + x ∧ x < CL_TCDM_SIZE := by
    intro a ha
    obtain ⟨hlo, hhi⟩ := of_decide_eq_true ha
    obtain ⟨x, rfl⟩ := Nat.exists_eq_add_of_le hlo
    exact ⟨x, rfl, Nat.lt_of_add_lt_add_left hhi⟩
  refine ⟨fun a ha => ?_, fun a ha b hb hab => ?_, fun p hp => ?_⟩
  · obtain ⟨x, rfl, hx⟩ := hsplit a ha
    change bankAddressing N (CL_TCDM_BASE + x) < bankSize N
    rw [h.addressing_eq hx]
    exact h.local_lt hx
  · obtain ⟨x, rfl, hx⟩ := hsplit a ha
    obtain ⟨y, rfl, hy⟩ := hsplit b hb
    obtain ⟨hbank, hlocal⟩ := Prod.mk.inj hab
    rw [Fin.ext_iff, h.bank_eq, h.bank_eq] at hbank
    rw [h.addressing_eq hx, h.addressing_eq hy] at hlocal
    have := same_word hbank (by omega)
    omega
  · obtain ⟨b, l⟩ := p
    have hl : l < bankSize N := hp
    obtain ⟨m, hsize, hbankSize⟩ := h.words
    -- the word of the bank is that of the turn `l / 4`
    have hword : ((l / 4 * N + b) * 4 + l % 4) / 4 = l / 4 * N + b := by omega
    have hlt : (l / 4 * N + b) * 4 + l % 4 < CL_TCDM_SIZE := by
      have hturn : l / 4 + 1 ≤ m := by omega
      have := Nat.mul_le_mul_right N hturn
      rw [Nat.succ_mul, Nat.mul_comm m N] at this
      have hb := b.isLt
      omega
    have hdiv : (l / 4 * N + b) / N = l / 4 := by
      rw [Nat.add_comm, Nat.add_mul_div_right _ _ (NeZero.pos N), Nat.div_eq_of_lt b.isLt, Nat.zero_add]
    refine ⟨CL_TCDM_BASE + ((l / 4 * N + b) * 4 + l % 4), in_tcdm hlt, Prod.ext (Fin.ext ?_) ?_⟩
    · change (bank N _).val = b.val
      rw [h.bank_eq, hword, Nat.mul_add_mod_of_lt b.isLt]
    · change bankAddressing N _ = l
      rw [h.addressing_eq hlt, hword, hdiv]
      omega

/-- **The interleaved banks are one memory**: the places correspond to the addresses, a word lies in one bank, and every
sequence of aligned accesses returns the words that one memory returns. The words of an image are found at their
addresses if and only if it is `Loadable`. -/
theorem tcdm_flat (h : Geometry N) :
    Set.BijOn (fun a => (bank N a, bankAddressing N a)) {a | demuxIsInTcdmSpace a = true} {p | p.2 < bankSize N} ∧
    (∀ a k, demuxIsInTcdmSpace a = true → a % 4 = 0 → k < 4 →
      bank N (a + k) = bank N a ∧ bankAddressing N (a + k) = bankAddressing N a + k) ∧
    (∀ (banks : Banks N) accesses, Sized banks → (∀ access ∈ accesses, access.Aligned) →
      ∃ banks' words, serveAll serve banks accesses = some (banks', words) ∧
        serveAll serveFlat (flatten banks) accesses = some (flatten banks', words)) ∧
    ∀ (p : Platform) (image : Image), LoaderRight N p image ↔ Loadable p image := by
  refine ⟨h.bijective, fun a k ha hal hk => ?_, fun banks accesses hs ha => h.serveAll_flatten hs ha,
    fun p image => h.loaderRight_iff⟩
  obtain ⟨hlo, hhi⟩ := of_decide_eq_true ha
  obtain ⟨x, rfl⟩ := Nat.exists_eq_add_of_le hlo
  have hbase : CL_TCDM_BASE % 4 = 0 := by decide
  rw [Nat.add_assoc]
  exact h.within (Nat.lt_of_add_lt_add_left hhi) (by omega)

theorem sixteenBanks : Geometry 16 := ⟨⟨4, rfl⟩, by decide, by decide, by decide⟩

/-- An image whose last word is 1, at the address `a`. -/
def lastWord (a : Nat) (h : a + 4 ≤ 2 ^ 32) : Image where
  size := a + 4
  bytes k := if k = a then 1 else 0
  addressed := h

theorem lastWord_zeros {a b : Nat} (h : a + 4 ≤ 2 ^ 32) (hb : b + 4 ≤ a) : (lastWord a h).word b = 0 := by
  have hbytes : ∀ k < 4, (lastWord a h).bytes (b + k) = 0 := fun k hk => if_neg (by omega)
  rw [MemClass.word, show (lastWord a h).bytes b = 0 from hbytes 0 (by decide), hbytes 1 (by decide),
    hbytes 2 (by decide), hbytes 3 (by decide)]
  rfl

/-- A byte is written within a word, and a half word of it read back, and another word. -/
def mixedAccesses : List Access :=
  [.write 0x08000044 0xAABBCCDD MEM_WORD, .write 0x08000045 0x11 MEM_BYTE, .read 0x08000044 MEM_HWORD,
    .read 0x08000040 MEM_WORD]

/-- The banks of the default platform: the places, those of a word, some accesses, and an image with a word at
`CL_LOCAL_SHARED_OFFSET`. -/
theorem tcdm_flat_sixteenBanks :
    Set.BijOn (fun a => (bank 16 a, bankAddressing 16 a)) {a | demuxIsInTcdmSpace a = true} {p | p.2 < bankSize 16} ∧
    bank 16 0x08000047 = bank 16 0x08000044 ∧
    (serveAll serve (fresh 16) mixedAccesses).map Prod.snd = some [0x11DD, 0] ∧
    LoaderRight 16 .shr (lastWord 0x08060000 (by decide)) := by
  obtain ⟨hbij, hword, haccess, hload⟩ := tcdm_flat sixteenBanks
  refine ⟨hbij, (hword 0x08000044 3 (by decide) (by decide) (by decide)).1, ?_, (hload _ _).2 ⟨by decide, ?_, ?_⟩⟩
  · have haligned : ∀ access ∈ mixedAccesses, access.Aligned := by
      simp only [mixedAccesses, List.forall_mem_cons, List.not_mem_nil, false_implies, implies_true, and_true,
        Access.Aligned, AlignedAt]
      decide
    obtain ⟨banks', words, hserve, hflat⟩ := haccess (fresh 16) mixedAccesses (fun _ => rfl) haligned
    have hwords : (serveAll serveFlat (flatten (fresh 16)) mixedAccesses).map Prod.snd = some [0x11DD, 0] := by rfl
    rw [hflat] at hwords
    rw [hserve]
    exact hwords
  · intro _ _
    decide
  · intro b hb hlt
    have hoff : CL_TCDM_BASE + CL_LOCAL_SHARED_OFFSET = 0x08060000 := rfl
    have hmod := hb.2.1
    exact lastWord_zeros _ (by omega)

/-- An initialised word at the beginning of the `LOCAL_SHARED` segment of vsoc.ld, which is not at
`CL_LOCAL_SHARED_OFFSET`. -/
theorem not_loaderRight_localShared :
    ¬ LoaderRight 16 .prv (lastWord 0x0803F000 (by decide)) ∧
      ¬ LoaderRight 16 .shr (lastWord 0x0803F000 (by decide)) := by
  have hnot : ∀ p, ¬ LoaderRight 16 p (lastWord 0x0803F000 (by decide)) := by
    intro p hright
    have hzero := (sixteenBanks.loaderRight_iff.1 hright).zeros 0x0803F000 ⟨by decide, by decide, by decide⟩ (by decide)
    exact absurd hzero (by decide)
  exact ⟨hnot .prv, hnot .shr⟩

end VirtualSoc.Tcdm

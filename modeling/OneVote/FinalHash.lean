-- SUMMARY: What a final hash commits to: the first voter of the block and its magic, and nothing else.
import Mathlib.Data.Set.Function
import OneVote.ProcessingThread

/-!
# Final hash

The eight leaves of the Merkle tree are all the hash of the first voter's key.
So a final hash without collisions determines the first 20 bytes of that key, and
says nothing about the other votes or about the previous block.
-/

namespace OneVote

/-! ## Equal digests -/

theorem sameHash_ptr {d e : Digest} : sameHash d.ptr e.ptr = .ok true ↔ d = e := by
  constructor
  · intro h
    unfold sameHash at h
    rw [sameHashFrom_eq_true] at h
    refine Digest.ext (List.ext_getElem (d.length_eq.trans e.length_eq.symm) fun j hj hj' => ?_)
    obtain ⟨x, hx, hy⟩ := h j (hj.trans_eq d.length_eq)
    obtain ⟨bs, hbs, hget⟩ := CharPtr.byte_eq_ok.1 hx
    obtain ⟨cs, hcs, hget'⟩ := CharPtr.byte_eq_ok.1 hy
    cases hbs
    cases hcs
    rw [Nat.zero_add] at hget hget'
    rw [List.getElem?_eq_getElem hj] at hget
    rw [List.getElem?_eq_getElem hj'] at hget'
    exact Option.some.inj (hget.trans hget'.symm)
  · rintro rfl
    exact sameHash_refl (Digest.isHash_ptr d)

namespace Block

variable (SHA1 : Bytes → Digest)

/-- The strings that `calculate_finhash` hashes, for the bytes of the leaves and
the magic. -/
def hashInputs (data : Bytes) (magic : UInt64) : List Bytes :=
  let leaf := SHA1 data
  let level₁ := pairUp SHA1 leaf
  let level₂ := pairUp SHA1 level₁
  [data, leaf.bytes ++ leaf.bytes, level₁.bytes ++ level₁.bytes, level₂.bytes ++ level₂.bytes,
    (uniformRoot SHA1 data).bytes ++ magicBytes magic]

/-- The strings hashed for a block with its final magic. -/
def Hashes (b : Block) (s : Bytes) : Prop :=
  ∃ data, b.leafData = .ok data ∧ s ∈ hashInputs SHA1 data b.magic

variable {SHA1}

theorem pairUp_injOn {S : Set Bytes} (hinj : Set.InjOn SHA1 S) {h h' : Digest}
    (hh : h.bytes ++ h.bytes ∈ S) (hh' : h'.bytes ++ h'.bytes ∈ S)
    (heq : pairUp SHA1 h = pairUp SHA1 h') : h = h' :=
  (Digest.append_inj (hinj hh hh' heq)).1

/-- Level by level, from the root to the leaves. -/
theorem uniformRoot_injOn {S : Set Bytes} (hinj : Set.InjOn SHA1 S) {data data' : Bytes}
    {magic magic' : UInt64} (hdata : ∀ s ∈ hashInputs SHA1 data magic, s ∈ S)
    (hdata' : ∀ s ∈ hashInputs SHA1 data' magic', s ∈ S)
    (heq : uniformRoot SHA1 data = uniformRoot SHA1 data') : data = data' := by
  simp only [hashInputs, List.forall_mem_cons] at hdata hdata'
  obtain ⟨hleaf, h₁, h₂, h₃, -⟩ := hdata
  obtain ⟨hleaf', h₁', h₂', h₃', -⟩ := hdata'
  exact hinj hleaf hleaf' (pairUp_injOn hinj h₁ h₁' (pairUp_injOn hinj h₂ h₂'
    (pairUp_injOn hinj h₃ h₃' heq)))

/-- Two blocks with one final hash have one first voter, as far as the leaves
read its key. -/
theorem HashMatches.leafData_eq {S : Set Bytes} (hinj : Set.InjOn SHA1 S) {b c : Block}
    (hb : b.HashMatches SHA1) (hc : c.HashMatches SHA1) (hbS : ∀ s, b.Hashes SHA1 s → s ∈ S)
    (hcS : ∀ s, c.Hashes SHA1 s → s ∈ S) (hfin : sameHash b.finhash c.finhash = .ok true) :
    ∃ data, b.leafData = .ok data ∧ c.leafData = .ok data := by
  obtain ⟨data, hdata, hbfin⟩ := hashMatches_iff.1 hb
  obtain ⟨data', hdata', hcfin⟩ := hashMatches_iff.1 hc
  have hin : ∀ s ∈ hashInputs SHA1 data b.magic, s ∈ S := fun s hs => hbS s ⟨data, hdata, hs⟩
  have hin' : ∀ s ∈ hashInputs SHA1 data' c.magic, s ∈ S := fun s hs => hcS s ⟨data', hdata', hs⟩
  rw [hbfin, hcfin, sameHash_ptr] at hfin
  have hlast := hinj (hin _ (by simp [hashInputs])) (hin' _ (by simp [hashInputs])) hfin
  have hroot : uniformRoot SHA1 data = uniformRoot SHA1 data' :=
    Digest.ext (List.append_inj hlast
      ((uniformRoot SHA1 data).length_eq.trans (uniformRoot SHA1 data').length_eq.symm)).1
  have heq := uniformRoot_injOn hinj hin hin' hroot
  exact ⟨data, hdata, heq ▸ hdata'⟩

theorem MeetsTarget.byte_finhash {b : Block} (h : b.MeetsTarget) : b.finhash.byte 0 = .ok 0 := by
  obtain ⟨lz, hlz, hle⟩ := h
  exact leadingZeros_first hlz (Int32.le_trans (by decide) hle)

/-- A hash that meets the target starts with a zero byte, the genesis block's
with an `S`. -/
theorem MeetsTarget.not_genesis {b : Block} (h : b.MeetsTarget) (tail : GenesisTail) :
    sameHash (Blockchain.genesis tail).finhash b.finhash ≠ .ok true := by
  intro hsame
  unfold sameHash at hsame
  rw [sameHashFrom_eq_true] at hsame
  obtain ⟨x, hx, hy⟩ := hsame 0 (by decide)
  cases h.byte_finhash.symm.trans hy
  cases hx

end Block

end OneVote

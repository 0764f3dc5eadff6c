-- SUMMARY: The genesis hash as the constructor wrote it, and the comparisons that read past its end.
import OneVote.Readable

/-!
# Genesis hash

The hash of the genesis block is the text `STARTINGBLOCK`: 13 bytes that are
written, in a buffer of 15. A comparison that agrees with all of them goes on in
memory that nobody wrote.
-/

namespace OneVote

/-- The genesis block with the bytes of its hash that the constructor wrote. -/
def genesisText : Block :=
  { Block.new with blockNumber := 1, finhash := some Blockchain.startingBlock }

/-- The chain on top of the genesis block as it was written. -/
def Blockchain.written (bc : Blockchain) : Blockchain :=
  { bc with blocks := bc.nonGenesis ++ [genesisText] }

/-! ## Comparing with too few bytes -/

/-- From an index up to which fewer than `n` bytes are left on one side. -/
theorem sameHashFrom_short {bs cs : Bytes} {i n : Nat} (hbs : i + n ≤ bs.length)
    (hi : i ≤ cs.length) (hcs : cs.length < i + n) :
    (cs.drop i <+: bs.drop i →
        sameHashFrom (some bs) (some cs) i n = .error .outOfRange ∧
          sameHashFrom (some cs) (some bs) i n = .error .outOfRange) ∧
      (¬ cs.drop i <+: bs.drop i →
        sameHashFrom (some bs) (some cs) i n = .ok false ∧
          sameHashFrom (some cs) (some bs) i n = .ok false) := by
  induction n generalizing i with
  | zero => exact absurd hcs (Nat.not_lt.2 hi)
  | succ n ih =>
      have hb : i < bs.length := by omega
      have hx : CharPtr.byte (some bs) i = .ok bs[i] :=
        CharPtr.byte_eq_ok.2 ⟨bs, rfl, List.getElem?_eq_getElem hb⟩
      rcases Nat.eq_or_lt_of_le hi with rfl | hc
      · have hend : CharPtr.byte (some cs) cs.length = .error .outOfRange := by
          simp [CharPtr.byte]
        rw [sameHashFrom, sameHashFrom, hx, hend, Except.ok_bind, List.drop_length]
        exact ⟨fun _ => ⟨rfl, rfl⟩, fun hnot => absurd List.nil_prefix hnot⟩
      · have hy : CharPtr.byte (some cs) i = .ok cs[i] :=
          CharPtr.byte_eq_ok.2 ⟨cs, rfl, List.getElem?_eq_getElem hc⟩
        rw [sameHashFrom, sameHashFrom, hx, hy, Except.ok_bind, Except.ok_bind, Except.ok_bind,
          Except.ok_bind, List.drop_eq_getElem_cons hb, List.drop_eq_getElem_cons hc,
          List.cons_prefix_cons]
        by_cases hxy : cs[i] = bs[i]
        · rw [if_neg (not_not_intro hxy.symm), if_neg (not_not_intro hxy)]
          simpa only [hxy, true_and] using ih (by omega) hc (by omega)
        · rw [if_pos (Ne.symm hxy), if_pos hxy]
          exact ⟨fun h => absurd h.1 hxy, fun _ => ⟨rfl, rfl⟩⟩

/-- A hash that begins with the text is compared past its end. -/
theorem sameHash_text_of_prefix {bs : Bytes} (hbs : publicKeySize ≤ bs.length)
    (h : Blockchain.startingBlock <+: bs) :
    sameHash (some bs) (some Blockchain.startingBlock) = .error .outOfRange ∧
      sameHash (some Blockchain.startingBlock) (some bs) = .error .outOfRange :=
  (sameHashFrom_short (i := 0) (by simpa using hbs) (Nat.zero_le _) (by decide)).1 h

/-- Any other hash is told apart within the text. -/
theorem sameHash_text_of_not_prefix {bs : Bytes} (hbs : publicKeySize ≤ bs.length)
    (h : ¬ Blockchain.startingBlock <+: bs) :
    sameHash (some bs) (some Blockchain.startingBlock) = .ok false ∧
      sameHash (some Blockchain.startingBlock) (some bs) = .ok false :=
  (sameHashFrom_short (i := 0) (by simpa using hbs) (Nat.zero_le _) (by decide)).2 h

/-- The pointer's bytes begin with the text. -/
def CharPtr.NamesGenesis (p : CharPtr) : Prop :=
  ∃ bs, p = some bs ∧ Blockchain.startingBlock <+: bs

theorem CharPtr.NamesGenesis.sameHash {p : CharPtr} (h : p.NamesGenesis) (hp : p.IsHash) :
    sameHash p genesisText.finhash = .error .outOfRange ∧
      sameHash genesisText.finhash p = .error .outOfRange := by
  obtain ⟨bs, rfl, hprefix⟩ := h
  obtain ⟨cs, hcs, hlen⟩ := hp
  cases hcs
  exact sameHash_text_of_prefix hlen hprefix

theorem sameHash_of_not_namesGenesis {p : CharPtr} (h : ¬ p.NamesGenesis) (hp : p.IsHash) :
    sameHash p genesisText.finhash = .ok false ∧ sameHash genesisText.finhash p = .ok false := by
  obtain ⟨bs, rfl, hlen⟩ := hp
  exact sameHash_text_of_not_prefix hlen fun hprefix => h ⟨bs, rfl, hprefix⟩

/-- The NUL behind a string is not part of the text. -/
theorem prefix_append_nul {s : Bytes} :
    Blockchain.startingBlock <+: s ++ [0] ↔ Blockchain.startingBlock <+: s := by
  rw [List.prefix_concat_iff, or_iff_right]
  intro heq
  have hlast := congrArg List.getLast? heq
  rw [List.getLast?_concat] at hlast
  revert hlast
  decide

theorem CharPtr.namesGenesis_ofString {s : Bytes} :
    (CharPtr.ofString s).NamesGenesis ↔ Blockchain.startingBlock <+: s := by
  rw [← prefix_append_nul]
  constructor
  · rintro ⟨bs, hbs, hprefix⟩
    cases hbs
    exact hprefix
  · intro hprefix
    exact ⟨_, rfl, hprefix⟩

/-- The block makes a miner read past the genesis hash: its predecessor hash
begins with the text, or its own does and its number makes the miner look for it. -/
def Block.NamesGenesis (b : Block) : Prop :=
  b.prevBlockSHA1.NamesGenesis ∨ b.finhash.NamesGenesis ∧ 1 < b.blockNumber ∧ b.blockNumber ≤ 5

def BlockMsg.NamesGenesis (m : BlockMsg) : Prop :=
  Blockchain.startingBlock <+: m.prevBlockSHA1 ∨
    Blockchain.startingBlock <+: m.finalHash ∧ 1 < m.blockNumber ∧ m.blockNumber ≤ 5

theorem BlockMsg.namesGenesis_iff {m : BlockMsg} {b : Block} (hb : decodeBlock m = .ok b) :
    m.NamesGenesis ↔ b.NamesGenesis := by
  obtain ⟨-, arr, -, rfl⟩ := decodeBlock_eq_ok.1 hb
  exact or_congr CharPtr.namesGenesis_ofString.symm
    (and_congr_left' CharPtr.namesGenesis_ofString.symm)

/-! ## The written chain -/

namespace Blockchain

theorem nonGenesis_written (bc : Blockchain) : bc.written.nonGenesis = bc.nonGenesis :=
  List.dropLast_concat

theorem mem_blocks_written {bc : Blockchain} {c : Block} :
    c ∈ bc.written.blocks ↔ c ∈ bc.nonGenesis ∨ c = genesisText := by
  simp only [written, List.mem_append, List.mem_singleton]

theorem exists_head_written {bc : Blockchain} (h : 0 < bc.chainLength) :
    ∃ head, bc.written.getHeadBlock = .ok head := by
  obtain ⟨head, rest, hblocks⟩ := List.exists_cons_of_ne_nil
    (List.append_ne_nil_of_right_ne_nil bc.nonGenesis (List.cons_ne_nil genesisText []))
  exact ⟨head, getHeadBlock_eq_ok.2 ⟨h.ne', congrArg List.head? hblocks⟩⟩

end Blockchain

end OneVote

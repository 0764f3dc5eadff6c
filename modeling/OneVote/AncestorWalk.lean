-- SUMMARY: The ancestor walk from an unknown block: it never gives up, and it need not end.
import OneVote.Base.Cycles
import OneVote.ProcessingThread

/-!
# Ancestor walk

A walk from a block that is not in the chain looks for the same block again in
every iteration. What the iteration asks the peers for is the parent of whatever
the uninitialised inner variable points to. As the variable has one place in
memory, that is the parent that the iteration before was given.
-/

namespace OneVote

namespace Blockchain

/-! ## Walks that should give up -/

/-- The ancestors of `b` that the peers supply, `b` first, are not in the chain,
and no peer supplies the parent of the last one. -/
structure DeadEnd (bc : Blockchain) (getBlock : CharPtr → Exec (Option Block)) (b : Block)
    (ancestors : List Block) : Prop where
  head : ancestors.head? = some b
  supplied : ancestors.IsChain fun c d => getBlock c.prevBlockSHA1 = .ok (some d)
  missing : ∀ c, ancestors.getLast? = some c → getBlock c.prevBlockSHA1 = .ok none
  unknown : ∀ c ∈ ancestors, bc.checkIfBlockInChain c = .ok none

/-- No repair against a block that is not in the chain returns. -/
theorem repairBlockchain_ne_ok {bc : Blockchain} {b : Block}
    (h : bc.checkIfBlockInChain b = .ok none) (env : RepairEnv)
    (r : Bool × Blockchain × List Transaction) : bc.repairBlockchain b env ≠ .ok r := by
  intro hok
  obtain ⟨repaired, bc', pushed⟩ := r
  obtain ⟨-, it, hfound, -⟩ := repairBlockchain_eq_ok.1 hok
  cases h.symm.trans hfound

end Blockchain

namespace Thread

/-- The repair returns false and changes nothing, and the thread goes on with
its working block and broadcasts nothing. -/
def GivesUp (th : Thread) (getBlock : CharPtr → Exec (Option Block)) (stack : Nat → Option Block)
    (b : Block) : Prop :=
  ∃ fuel, th.bc.repairBlockchain b ⟨getBlock, stack, fuel⟩ = .ok (false, th.bc, []) ∧
    th.handleBlock b ⟨getBlock, stack, fuel⟩ = .ok (th, true, [])

/-- No repair gives up, however the walk to the missing parent looks and
whatever the uninitialised variable holds. -/
theorem not_givesUp_of_deadEnd {th : Thread} {getBlock : CharPtr → Exec (Option Block)} {b : Block}
    {ancestors : List Block} (h : th.bc.DeadEnd getBlock b ancestors) (stack : Nat → Option Block) :
    ¬ th.GivesUp getBlock stack b := by
  rintro ⟨fuel, hrepair, -⟩
  have hunknown := h.unknown b (List.mem_of_mem_head? h.head)
  exact Blockchain.repairBlockchain_ne_ok hunknown _ _ hrepair

end Thread

/-! ## Walks that need not end -/

/-- `client->getBlock` for peers that serve the blocks of a table, each under
the 20 bytes that a request asks for. -/
def serve (table : List (Bytes × Block)) (hash : CharPtr) : Exec (Option Block) := do
  let key ← hash.read publicKeySize
  return table.lookup key

namespace Blockchain

variable {table : List (Bytes × Block)}

/-- The peers that serve the table supply `parent` for `child`. -/
def Supplies (table : List (Bytes × Block)) (child parent : Block) : Prop :=
  getParentBlockFromNeighbor (some child) ⟨serve table, fun _ => none, 0⟩ = .ok (some parent)

/-- What the inner variable points to is arbitrary at first. From then on it is the
parent that the iteration before was given. -/
def KeepsParent (table : List (Bytes × Block)) (stack : Nat → Option Block) : Prop :=
  ∀ i child parent, stack i = some child → Supplies table child parent →
    stack (i + 1) = some parent

/-- The loop ends after some number of iterations, whatever the inner variable
points to at first. -/
def WalkEnds (bc : Blockchain) (table : List (Bytes × Block)) (b : Block) : Prop :=
  ∀ stack, KeepsParent table stack →
    ∃ n, bc.ancestorWalk ⟨serve table, stack, n⟩ b n 0 [] ≠ .error .outOfFuel

/-- From some block the parents that are supplied lead back to it. -/
def Cyclic (table : List (Bytes × Block)) : Prop :=
  ∃ c, Relation.TransGen (Supplies table) c c

theorem Supplies.eq_of_supplies {child parent parent' : Block} (h : Supplies table child parent)
    (h' : Supplies table child parent') : parent = parent' :=
  Option.some.inj (Except.ok.inj (h.symm.trans h'))

theorem Supplies.mem {child parent : Block} (h : Supplies table child parent) :
    parent ∈ table.map (·.2) := by
  obtain ⟨child, x, y, -, -, -, -, -, hserve⟩ := getParentBlockFromNeighbor_eq_ok.1 h
  obtain ⟨key, -, hlookup⟩ := Except.bind_eq_ok.1 hserve
  obtain ⟨before, after, hsplit, -⟩ := List.lookup_eq_some_iff.1 (Except.pure_eq_ok.1 hlookup)
  rw [hsplit]
  simp

theorem ne_outOfFuel_of_isAccess {e : Stop} (h : e.IsAccess) : e ≠ .outOfFuel := by
  rintro rfl
  exact h

/-- A request reads the hash and has no loop. -/
theorem raises_serve (table : List (Bytes × Block)) (hash : CharPtr) :
    (serve table hash).Raises (· ≠ .outOfFuel) := by
  exact ((CharPtr.raises_read hash publicKeySize).mono fun _ => ne_outOfFuel_of_isAccess).bind
    fun key _ => Except.raises_ok _ _

/-- A walk from an unknown block runs as long as the peers supply a parent for
what the inner variable points to. -/
theorem ancestorWalk_eq_outOfFuel {bc : Blockchain} {b : Block}
    (h : bc.checkIfBlockInChain b = .ok none) (stack : Nat → Option Block) (n fuel i : Nat)
    (acc : List Block) :
    bc.ancestorWalk ⟨serve table, stack, n⟩ b fuel i acc = .error .outOfFuel ↔
      ∀ j < fuel, ∃ child parent, stack (i + j) = some child ∧ Supplies table child parent := by
  induction fuel generalizing i acc with
  | zero => simp [ancestorWalk]
  | succ fuel ih =>
      rw [ancestorWalk, h, Except.ok_bind, Nat.forall_lt_succ_left']
      dsimp only
      have hraises := @raises_getParentBlockFromNeighbor (· ≠ .outOfFuel) (by simp)
        (fun _ => ne_outOfFuel_of_isAccess) ⟨serve table, stack, n⟩ (raises_serve table) (stack i)
      cases hparent : getParentBlockFromNeighbor (stack i) ⟨serve table, stack, n⟩ with
      | error e =>
          refine iff_of_false (fun heq => hraises e hparent (Except.error.inj heq)) ?_
          rintro ⟨⟨child, parent, hchild, hsupplies⟩, -⟩
          rw [Nat.add_zero] at hchild
          rw [hchild] at hparent
          cases hsupplies.symm.trans hparent
      | ok parent? =>
          cases parent? with
          | none => exact absurd hparent (getParentBlockFromNeighbor_ne_null _ _)
          | some parent =>
              obtain ⟨child, x, y, hchild, -⟩ := getParentBlockFromNeighbor_eq_ok.1 hparent
              rw [hchild] at hparent
              have hfirst : ∃ child parent, stack (i + 0) = some child ∧
                  Supplies table child parent := ⟨child, parent, hchild, hparent⟩
              rw [Except.ok_bind, ih, and_iff_right hfirst]
              simp only [Nat.add_assoc, Nat.add_comm 1]

/-- On a cycle the inner variable comes to no block without a parent. -/
theorem Cyclic.not_walkEnds {bc : Blockchain} {b : Block} (h : Cyclic table)
    (hunknown : bc.checkIfBlockInChain b = .ok none) : ¬ bc.WalkEnds table b := by
  intro hends
  obtain ⟨c, hcycle⟩ := h
  obtain ⟨f, -, hpath⟩ := hcycle.exists_path
  have hkeeps : KeepsParent table fun i => some (f i) := by
    rintro i child parent hchild hsupplies
    cases hchild
    exact congrArg some ((hpath i).eq_of_supplies hsupplies)
  obtain ⟨n, hn⟩ := hends _ hkeeps
  exact hn ((ancestorWalk_eq_outOfFuel hunknown _ n n 0 []).2
    fun j _ => ⟨_, _, rfl, hpath (0 + j)⟩)

theorem walkEnds_of_known {bc : Blockchain} {b : Block}
    (h : bc.checkIfBlockInChain b ≠ .ok none) : bc.WalkEnds table b := by
  intro stack _
  refine ⟨1, fun hfuel => ?_⟩
  rw [ancestorWalk] at hfuel
  cases hcheck : bc.checkIfBlockInChain b with
  | error e =>
      rw [hcheck] at hfuel
      exact ne_outOfFuel_of_isAccess (raises_checkIfBlockInChain bc b e hcheck)
        (Except.error.inj hfuel)
  | ok it? =>
      cases it? with
      | none => exact h hcheck
      | some it =>
          rw [hcheck] at hfuel
          cases hfuel

/-- A walk that runs for ever goes from served block to served block. -/
theorem cyclic_of_not_walkEnds {bc : Blockchain} {b : Block}
    (hunknown : bc.checkIfBlockInChain b = .ok none) (h : ¬ bc.WalkEnds table b) :
    Cyclic table := by
  simp only [WalkEnds, not_forall, not_exists, not_not] at h
  obtain ⟨stack, hkeeps, hruns⟩ := h
  have hsupplied : ∀ i, ∃ child parent, stack i = some child ∧ Supplies table child parent := by
    intro i
    have hstep := (ancestorWalk_eq_outOfFuel hunknown stack _ _ 0 []).1 (hruns (i + 1)) i
      (Nat.lt_succ_self i)
    rwa [Nat.zero_add] at hstep
  choose f parent hf hparent using hsupplied
  have hpath : ∀ i, Supplies table (f i) (f (i + 1)) := by
    intro i
    have hnext := hkeeps i _ _ (hf i) (hparent i)
    rw [Option.some.inj ((hf (i + 1)).symm.trans hnext)]
    exact hparent i
  have hserved : ∀ i, f (i + 1) ∈ {c | c ∈ table.map (·.2)} := fun i => (hpath i).mem
  exact Relation.exists_cycle_of_path (fun i => hpath (i + 1)) (List.finite_toSet _) hserved

/-- The walk ends exactly when the block is known or no served blocks name each
other in a circle. -/
theorem walkEnds_iff (bc : Blockchain) (table : List (Bytes × Block)) (b : Block) :
    bc.WalkEnds table b ↔ bc.checkIfBlockInChain b ≠ .ok none ∨ ¬ Cyclic table := by
  constructor
  · intro hends
    by_contra hnot
    rw [not_or, not_not, not_not] at hnot
    exact hnot.2.not_walkEnds hnot.1 hends
  · rintro (hknown | hacyclic)
    · exact walkEnds_of_known hknown
    · by_cases hunknown : bc.checkIfBlockInChain b = .ok none
      · by_contra hends
        exact hacyclic (cyclic_of_not_walkEnds hunknown hends)
      · exact walkEnds_of_known hunknown

/-- Two blocks, each of which names the other as its parent. -/
def circle : List (Bytes × Block) :=
  [(sampleHash 103, Block.sample 17 (sampleHash 105) (sampleHash 103) 3),
    (sampleHash 105, Block.sample 33 (sampleHash 103) (sampleHash 105) 3)]

theorem circle_cyclic : Cyclic circle := by
  have hthere : Supplies circle (Block.sample 17 (sampleHash 105) (sampleHash 103) 3)
      (Block.sample 33 (sampleHash 103) (sampleHash 105) 3) := by rfl
  have hback : Supplies circle (Block.sample 33 (sampleHash 103) (sampleHash 105) 3)
      (Block.sample 17 (sampleHash 105) (sampleHash 103) 3) := by rfl
  exact ⟨_, .tail (.single hthere) hback⟩

/-- The walk from a block that names one of them does not end. -/
theorem circle_walk_runs :
    ¬ ∀ (bc : Blockchain) table b, bc.WalkEnds table b := by
  intro h
  exact circle_cyclic.not_walkEnds (by decide)
    (h sampleChain circle (Block.sample 25 (sampleHash 103) (sampleHash 104) 4))

end Blockchain

namespace Thread

/-- A miner on the sample chain. -/
def sampleThread : Thread := ⟨Blockchain.sampleChain, .new, false, .head⟩

/-- The parent of the block is served, and its parent is not. -/
theorem sampleFork_deadEnd :
    sampleThread.bc.DeadEnd
      (serve [(Blockchain.sampleHash 103,
        Block.sample 17 (Blockchain.sampleHash 99) (Blockchain.sampleHash 103) 3)])
      (Block.sample 25 (Blockchain.sampleHash 103) (Blockchain.sampleHash 104) 4)
      [Block.sample 25 (Blockchain.sampleHash 103) (Blockchain.sampleHash 104) 4,
        Block.sample 17 (Blockchain.sampleHash 99) (Blockchain.sampleHash 103) 3] where
  head := rfl
  supplied := by decide
  missing := by
    intro c hc
    cases hc
    decide
  unknown := by decide

theorem sampleFork_not_givesUp :
    ¬ sampleThread.GivesUp
      (serve [(Blockchain.sampleHash 103,
        Block.sample 17 (Blockchain.sampleHash 99) (Blockchain.sampleHash 103) 3)])
      (fun _ => none) (Block.sample 25 (Blockchain.sampleHash 103) (Blockchain.sampleHash 104) 4) :=
  not_givesUp_of_deadEnd sampleFork_deadEnd _

/-- A repair against a block with a higher number whose grandparent is missing
does not give up. -/
theorem deadEnd_repair_stops :
    ¬ ∀ (th : Thread) getBlock stack b ancestors, th.point = .head →
      th.bc.checkBlockValidity b = .ok .prevBlockNonmatch →
      (∀ head, th.bc.getHeadBlock = .ok head → head.blockNumber < b.blockNumber) →
      th.bc.DeadEnd getBlock b ancestors → th.GivesUp getBlock stack b := by
  intro h
  obtain ⟨fuel, hrepair, -⟩ := h sampleThread _ (fun _ => none) _ _ rfl (by decide)
    (by
      intro head hhead
      cases hhead
      decide)
    sampleFork_deadEnd
  exact Blockchain.repairBlockchain_ne_ok (by decide) _ _ hrepair

end Thread

end OneVote

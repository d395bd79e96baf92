import Shachain2pc.Circuit.Bristol
import Shachain2pc.Types.Chain

/-!
# Splitting a derivation into chunks
-/

namespace Shachain2pc

/-- Append one set bit to the last group, opening a new one when it is full. -/
def pushChainBit (blocksPerChunk : ℕ) (groups : List (List ℕ)) (bit : ℕ) : List (List ℕ) :=
  let last := groups.getLastD []
  if last ≠ [] ∧ last.length = blocksPerChunk then groups ++ [[bit]]
  else groups.dropLast ++ [last ++ [bit]]

/-- `split_chain_bits`. -/
def splitChainBits (index blocksPerChunk : ℕ) : Except CircuitError (List (List ℕ)) :=
  if blocksPerChunk < 1 then
    .error (.shape "SplitChainBits: blocks_per_chunk must be >= 1")
  else if maxIndex < index then
    .error (.index (.indexTooLarge index))
  else
    .ok (bitsDesc.foldl
      (fun groups bit =>
        if index.testBit bit then pushChainBit blocksPerChunk groups bit else groups)
      [[]])

example : splitChainBits 0b101101 2 = .ok [[5, 3], [2, 0]] := by decide +kernel

end Shachain2pc

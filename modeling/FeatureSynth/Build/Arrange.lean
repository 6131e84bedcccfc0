/-
# Order of created fields

What a build created goes to the tail of its class: first the new candidate
fields in the order given, then the other fields of the ledger, in ledger order.
Members stay in their blocks.  Where blocks were built, these follow, each with
its members by key, and last come the descriptors and table blocks of the
partitions they use.
-/
import FeatureSynth.Build.State

namespace FeatureSynth

namespace Build

/-- Moves fields that are not in blocks to the tail of their classes, each once. -/
def moveFields : (moved : List FieldPath) → List FieldPath → Build Unit
  | _, [] => return
  | moved, path :: rest => do
    let e ← entity path.className
    let inBlock := (e.field? path.name).all (·.block.isSome)
    if inBlock || moved.contains path then moveFields moved rest
    else
      edit path.className fun e => .ok (e.moveFieldToTail path.name)
      moveFields (path :: moved) rest

/-- The fields of the ledger that the build created, in ledger order. -/
def ledgerFields (b : BuildState) : List FieldPath :=
  b.fieldOf.entries.filterMap fun (r, name) =>
    name.bind fun name => if b.isCreated r.className name then some ⟨r.className, name⟩ else none

/-- Moves new fields to the tail, then the other created fields of the ledger. -/
def arrangeFields (new : List FieldPath) : Build Unit := do
  let b ← get
  moveFields [] (new ++ ledgerFields b)

/-- Moves a block to the tail of its class, its members by key. -/
def moveBlock (className block : String) : Build Unit :=
  edit className fun e => .ok ((e.moveBlockToTail block).sortBlock block)

/-- The partition that a partition block rule uses. -/
def blockPartition? (r : Rule) : Option Nat :=
  if r.classify = .partitionBlock then r.usedPart?.map (·.partition) else none

/-- Moves the descriptor and the table block of a partition to the tail. -/
def movePartition (p : Partition) : Build Unit := do
  edit p.parentClass fun e =>
    .ok (match p.descriptorField with
      | some field => e.moveFieldToTail field
      | none => e)
  match p.tableBlock with
  | some block => moveBlock p.parentClass block
  | none => return

/-- Moves every block of the ledger to the tail, then the partitions they use. -/
def arrangeBlocks : Build Unit := do
  let b ← get
  let built := b.blockOf.entries.filter (·.2.isSome)
  built.forM fun (r, block) => moveBlock r.className (block.getD "")
  let ranks := (built.filterMap fun (r, _) => blockPartition? r).eraseDups
  let ranks := ranks.mergeSort fun i j => b.space.comparePartitions i j != .gt
  (ranks.filterMap fun rank => b.space.partitions[rank]?).forM movePartition

end Build

end FeatureSynth

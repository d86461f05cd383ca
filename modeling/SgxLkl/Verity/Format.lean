import SgxLkl.Lib.Merkle
import SgxLkl.Lib.Programs
import SgxLkl.Luks.Keys
import SgxLkl.Luks.Window

/-!
# Verity devices

`vic_verity_format` writes the hash tree of a data device to a hash device, one level after the other, and
computes the root hash.
-/

namespace SgxLkl.Verity

open Json (bytes)
open Luks (Bd VicResult Primitives HashType vicHashType vicUuidValid)

/-! ## Arguments -/

structure Devices where
  data : Bd
  hash : Bd

structure Args where
  hashAlgorithm : Option (List Byte)
  uuid : Option (List Byte)
  salt : Option (List Byte)
  needSuperblock : Bool
  dataBlockSize : Word
  hashBlockSize : Word
  /-- The size of the buffer for the root hash. -/
  rootHashSize : ℕ

/-- What does not come from the arguments: random bytes, a generated UUID, the value of a UUID, and what
`last_node` holds at first. -/
structure Env where
  random : ℕ → List Byte
  uuid : List Byte
  uuidStr2bin : List Byte → Option (List.Vector Byte 16)
  lastNode : List Byte

/-- `DEFAULT_BLKSZ` for zero. -/
def blockSizeOr (size : Word) : Word := if size = 0 then 4096 else size

def Args.hashType (args : Args) : Option HashType := args.hashAlgorithm.elim (some .sha256) vicHashType

def Args.saltOr (args : Args) (env : Env) (t : HashType) : List Byte := args.salt.getD (env.random t.size)

def Args.uuidOr (args : Args) (env : Env) : List Byte := args.uuid.getD env.uuid

/-! ## Devices -/

abbrev VerityM := EStateM VicResult Devices

/-- `RAISE`, under a condition. -/
def raiseIf (c : Prop) [Decidable c] (r : VicResult) : VerityM Unit := if c then throw r else pure ()

/-- `RAISE`, if there is no value. -/
def orRaise {α : Type} (r : VicResult) : Option α → VerityM α
  | none => throw r
  | some a => pure a

/-- `CHECK` of a call that changes the data device. -/
def onData (f : Bd → VicResult × Bd) : VerityM Unit := fun s =>
  match f s.data with
  | (.ok, data) => .ok () { s with data }
  | (r, data) => .error r { s with data }

/-- `CHECK` of a call that changes the hash device. -/
def onHash (f : Bd → VicResult × Bd) : VerityM Unit := fun s =>
  match f s.hash with
  | (.ok, hash) => .ok () { s with hash }
  | (r, hash) => .error r { s with hash }

def putHash (blkno : ℕ) (blk : List Byte) : VerityM Unit := onHash fun bd => bd.put (BitVec.ofNat 64 blkno) 1 blk

def getBlock (dev : Devices → Bd) (blkno : ℕ) : VerityM (List Byte) := fun s =>
  match (dev s).get (BitVec.ofNat 64 blkno) 1 with
  | .ok blk => .ok blk s
  | .error r => .error r s

/-! ## Sizes -/

def vicRoundUp (x m : ℕ) : ℕ := (x + m - 1) / m * m

/-- The loop that counts the nodes of the levels above one with `n` nodes, with `k` elements of `nnodes` left. -/
def nodeCounts (digestsPerBlk : ℕ) : ℕ → ℕ → Option (List ℕ)
  | 0, n => if n ≤ 1 then some [] else none
  | k + 1, n =>
    if n ≤ 1 then some []
    else
      let n := vicRoundUp n digestsPerBlk / digestsPerBlk
      (nodeCounts digestsPerBlk k n).map (n :: ·)

/-! ## Nodes -/

section

variable (P : Primitives) (t : HashType) (salt : List Byte) (blksz : ℕ)

/-- `vic_hash2`; the library is built without RIPEMD-160. -/
def vicHash2 (s1 s2 : List Byte) : VerityM (List Byte) :=
  if t = .ripemd160 then throw .unexpected else pure (P.hash t (s1 ++ s2))

def memcpy (dest : List Byte) (off : ℕ) (src : List Byte) : List Byte :=
  dest.take off ++ (src ++ dest.drop (off + src.length))

def zeros : List Byte := List.replicate blksz 0

/-- `k` zero blocks from block `i` on. -/
def putZeros : ℕ → ℕ → VerityM Unit
  | 0, _ => pure ()
  | k + 1, i => do
    putHash i (zeros blksz)
    putZeros k (i + 1)

/-- The loop over the data blocks, with `k` of them left. The result is `last_node`. All offsets are multiples of
the block size, as the assertions say. -/
def leafLoop : ℕ → ℕ → ℕ → List Byte → ℕ → List Byte → VerityM (List Byte)
  | 0, _, offset, node, nodeOffset, lastNode =>
    if 0 < nodeOffset then do
      putHash (offset / blksz) node
      pure node
    else pure lastNode
  | k + 1, i, offset, node, nodeOffset, lastNode => do
    let blk ← getBlock Devices.data i
    let h ← vicHash2 P t salt blk
    if blksz < nodeOffset + t.size then
      putHash (offset / blksz) node
      leafLoop k (i + 1) (offset + blksz) (memcpy (zeros blksz) 0 h) t.size node
    else leafLoop k (i + 1) offset (memcpy node nodeOffset h) (nodeOffset + t.size) lastNode

def fillNode : ℕ → ℕ → List Byte → ℕ → VerityM (ℕ × ℕ × List Byte)
  | 0, readOffset, node, _ => pure (0, readOffset, node)
  | numToRead + 1, readOffset, node, nodeOffset =>
    if nodeOffset + t.size ≤ blksz then do
      let blk ← getBlock Devices.hash (readOffset / blksz)
      let h ← vicHash2 P t salt blk
      fillNode numToRead (readOffset + blksz) (memcpy node nodeOffset h) (nodeOffset + t.size)
    else pure (numToRead + 1, readOffset, node)

def writeLevel : ℕ → ℕ → ℕ → ℕ → List Byte → VerityM (List Byte)
  | 0, _, _, _, lastNode => pure lastNode
  | k + 1, numToRead, readOffset, writeOffset, _ => do
    let (numToRead, readOffset, node) ← fillNode P t salt blksz numToRead readOffset (zeros blksz) 0
    putHash (writeOffset / blksz) node
    writeLevel k numToRead readOffset (writeOffset + blksz) node

def writeLevels (needSuperblock : Bool) : ℕ → List ℕ → List Byte → VerityM (List Byte)
  | _, [], lastNode => pure lastNode
  | prev, n :: ns, lastNode => do
    let readOffset := ((n :: ns).map (· * blksz)).sum + if needSuperblock then blksz else 0
    let writeOffset := (ns.map (· * blksz)).sum + if needSuperblock then blksz else 0
    let lastNode ← writeLevel P t salt blksz n prev readOffset writeOffset lastNode
    writeLevels needSuperblock n ns lastNode

end

/-! ## The superblock -/

/-- A number as `k` bytes, the least significant one first. -/
def littleEndian (k n : ℕ) : List Byte := (List.range k).map fun i => BitVec.ofNat 8 (n / 2 ^ (8 * i))

def field (n : ℕ) (xs : List Byte) : List Byte := (Luks.toVector n xs).toList

def vicHashName : HashType → List Byte
  | .sha1 => bytes "sha1"
  | .sha256 => bytes "sha256"
  | .sha512 => bytes "sha512"
  | .ripemd160 => bytes "ripemd160"

def superblock (t : HashType) (uuid : List.Vector Byte 16) (salt : List Byte) (blksz nblks : ℕ) : List Byte :=
  field 8 (bytes "verity") ++ littleEndian 4 1 ++ littleEndian 4 1 ++ uuid.toList ++
    field 32 (vicHashName t) ++ littleEndian 4 blksz ++ littleEndian 4 blksz ++ littleEndian 8 nblks ++
    littleEndian 2 salt.length ++ field 6 [] ++ field 256 salt ++ field 168 []

/-! ## The whole function -/

variable (P : Primitives) (env : Env)

/-- The hash device is filled with zero blocks, at least `MIN_HASH_FILE_SIZE` bytes. -/
def fillHash (blksz nblks : ℕ) : VerityM Unit := do
  putZeros blksz nblks 0
  if nblks * blksz < 4096 then putZeros blksz ((4096 - nblks * blksz) / blksz) nblks else pure ()

def writeSuperblock (needSuperblock : Bool) (blksz : ℕ) (sb : List Byte) : VerityM Unit :=
  if needSuperblock then putHash 0 (memcpy (zeros blksz) 0 sb) else pure ()

def formatWith (args : Args) (t : HashType) (blksz nblks : ℕ) : VerityM (List Byte) := do
  let salt := args.saltOr env t
  let digestsPerBlk := blksz / t.size
  let nleaves := vicRoundUp nblks digestsPerBlk / digestsPerBlk
  let counts ← orRaise .outOfBounds (nodeCounts digestsPerBlk 31 nleaves)
  let totalNodes := (nleaves :: counts).sum
  fillHash blksz (totalNodes + if args.needSuperblock then 1 else 0)
  let offset := (totalNodes - nleaves) * blksz + if args.needSuperblock then blksz else 0
  let lastNode ← leafLoop P t salt blksz nblks 0 offset (zeros blksz) 0 env.lastNode
  let lastNode ← writeLevels P t salt blksz args.needSuperblock nleaves counts lastNode
  let h ← vicHash2 P t salt lastNode
  raiseIf (args.rootHashSize < t.size) .bufferTooSmall
  let uuid ← orRaise .unexpected (env.uuidStr2bin (args.uuidOr env))
  writeSuperblock args.needSuperblock blksz (superblock t uuid salt blksz nblks)
  pure h

def vicVerityFormat (args : Args) : VerityM (List Byte) := do
  raiseIf (args.salt.any fun salt => salt.length = 0 ∨ 256 < salt.length) .badParameter
  let t ← orRaise .badParameter args.hashType
  raiseIf (args.uuid.any fun uuid => !vicUuidValid uuid) .badUuid
  let blksz := blockSizeOr args.dataBlockSize
  raiseIf (blksz ≠ blockSizeOr args.hashBlockSize) .failed
  raiseIf (blksz < 512 ∨ 4096 < blksz) .failed
  onData (·.setBlockSize blksz)
  onHash (·.setBlockSize blksz)
  let size := (← get).data.getSize
  raiseIf (size % blksz ≠ 0) .notBlockMultiple
  raiseIf (size < blksz * 2) .fileTooSmall
  formatWith P env args t blksz.toNat (size.toNat / blksz.toNat)

end SgxLkl.Verity

import ErbslandCore.Cryptology.Symmetric.GHash
import ErbslandCore.Library.BlockChaining
import ErbslandCore.Library.Except

namespace ErbslandCore.Cryptology
open Library
set_option autoImplicit true

/-- The permutation of the blocks that belongs to a key. -/
structure AesBlockCipher where
  encrypt : Block → Block
  decrypt : Block → Block
  decrypt_encrypt : ∀ block, decrypt (encrypt block) = block
  encrypt_decrypt : ∀ block, encrypt (decrypt block) = block

/-- The two constructions with a chain of blocks. -/
inductive AesCbcType where
  | aes256CbcRandomFill
  | aes256CbcIso9797Method2
  deriving DecidableEq

structure CryptologyError where
  message : String
  deriving DecidableEq

structure AesCbcState where
  type : AesCbcType
  cipher : AesBlockCipher
  chain : Block
  partialBlock : Block := Block.zero
  pendingCiphertext : Block := Block.zero
  partialLength : Nat := 0
  hasPendingCiphertext : Bool := false

namespace AesCbcState

def create (createAesBlockCipher : List UInt8 → AesBlockCipher) (type : AesCbcType)
    (key : List UInt8) (iv : Block) : AesCbcState where
  type := type
  cipher := createAesBlockCipher key
  chain := iv

def clearPartial (s : AesCbcState) : AesCbcState :=
  { s with partialBlock := Block.zero, partialLength := 0 }

/-- SP 800-38A: each block is combined with the ciphertext before it. -/
def encryptBlock (s : AesCbcState) (plaintext : Block) : AesCbcState × List UInt8 :=
  let ciphertext := s.cipher.encrypt (plaintext.xor s.chain)
  ({ s with chain := ciphertext }, ciphertext.toList)

def decryptBlock (s : AesCbcState) (ciphertext : Block) : AesCbcState × List UInt8 :=
  let plaintext := (s.cipher.decrypt ciphertext).xor s.chain
  ({ s with chain := ciphertext }, plaintext.toList)

/-- With a padding to check, the last block is held back. -/
def acceptCiphertextBlock (s : AesCbcState) (ciphertext : Block) : AesCbcState × List UInt8 :=
  match s.type with
  | .aes256CbcIso9797Method2 =>
    let (s, output) :=
      if s.hasPendingCiphertext then s.decryptBlock s.pendingCiphertext else (s, [])
    ({ s with pendingCiphertext := ciphertext, hasPendingCiphertext := true }, output)
  | .aes256CbcRandomFill => s.decryptBlock ciphertext

/-- Store a byte in the partial block, and pass it on when it is complete. -/
def acceptByte (acceptBlock : AesCbcState → Block → AesCbcState × List UInt8) (s : AesCbcState)
    (byte : UInt8) : AesCbcState × List UInt8 :=
  let s := { s with
    partialBlock := s.partialBlock.setIfInBounds s.partialLength byte
    partialLength := s.partialLength + 1 }
  if s.partialLength = 16 then
    let (s, output) := acceptBlock s s.partialBlock
    (s.clearPartial, output)
  else (s, [])

def acceptBytes (acceptBlock : AesCbcState → Block → AesCbcState × List UInt8) (s : AesCbcState) :
    List UInt8 → AesCbcState × List UInt8
  | [] => (s, [])
  | byte :: data =>
    let (s, output) := acceptByte acceptBlock s byte
    let (s, outputs) := acceptBytes acceptBlock s data
    (s, output ++ outputs)

def encrypt (s : AesCbcState) (data : List UInt8) : AesCbcState × List UInt8 :=
  acceptBytes encryptBlock s data

def decrypt (s : AesCbcState) (data : List UInt8) : AesCbcState × List UInt8 :=
  acceptBytes acceptCiphertextBlock s data

/-- A partial block is completed with random bytes, or with a marker and zeros. -/
def finalizeEncryption (secureRandom : (length : Nat) → Vector UInt8 length) (s : AesCbcState) :
    AesCbcState × List UInt8 :=
  match s.type with
  | .aes256CbcRandomFill =>
    if s.partialLength = 0 then (s, [])
    else
      let randomFill := secureRandom (16 - s.partialLength)
      let partialBlock :=
        Block.ofBytes (s.partialBlock.toList.take s.partialLength ++ randomFill.toList)
      let (s, output) := encryptBlock { s with partialBlock } partialBlock
      (s.clearPartial, output)
  | .aes256CbcIso9797Method2 =>
    let partialBlock := s.partialBlock.setIfInBounds s.partialLength 0x80
    let (s, output) := encryptBlock { s with partialBlock } partialBlock
    (s.clearPartial, output)

/-- What the scan of the last block found so far. -/
structure MarkerScan where
  foundMarker : UInt8 := 0
  invalid : UInt8 := 0
  markerIndex : UInt64 := 0

namespace MarkerScan

/-- The turn of the loop for one byte, without a branch. -/
def step (scan : MarkerScan) (index : Nat) (value : UInt8) : MarkerScan :=
  let isZero : UInt8 := if value = 0 then 1 else 0
  let isMarker : UInt8 := if value = 0x80 then 1 else 0
  let unresolved := scan.foundMarker ^^^ 1
  let selectMarker := unresolved &&& isMarker
  let mask : UInt64 := 0 - selectMarker.toUInt64
  { foundMarker := scan.foundMarker ||| isMarker
    invalid := scan.invalid ||| (unresolved &&& ((isZero ||| isMarker) ^^^ 1))
    markerIndex := (scan.markerIndex &&& ~~~mask) ||| (UInt64.ofNat index &&& mask) }

/-- The bytes before an index, from the last one to the first one. -/
def run (block : Block) (scan : MarkerScan) : Nat → MarkerScan
  | 0 => scan
  | index + 1 => run block (scan.step index (block.toList.getD index 0)) index

end MarkerScan

def throwFinalizationError : Except CryptologyError (AesCbcState × List UInt8) :=
  .error ⟨"Invalid AES-CBC ciphertext or padding."⟩

def finalizeDecryption (s : AesCbcState) : Except CryptologyError (AesCbcState × List UInt8) :=
  if s.partialLength ≠ 0 then throwFinalizationError
  else
    match s.type with
    | .aes256CbcRandomFill => .ok (s, [])
    | .aes256CbcIso9797Method2 =>
      if !s.hasPendingCiphertext then throwFinalizationError
      else
        let paddedPlaintext := (s.cipher.decrypt s.pendingCiphertext).xor s.chain
        let scan := MarkerScan.run paddedPlaintext {} 16
        if scan.invalid ||| (scan.foundMarker ^^^ 1) ≠ 0 then throwFinalizationError
        else
          .ok ({ s with pendingCiphertext := Block.zero, hasPendingCiphertext := false },
            paddedPlaintext.toList.take scan.markerIndex.toNat)

/-- Calls of one function with the pieces of a text. -/
def calls (call : AesCbcState → List UInt8 → AesCbcState × List UInt8) (s : AesCbcState) :
    List (List UInt8) → AesCbcState × List UInt8
  | [] => (s, [])
  | piece :: pieces =>
    let (s, output) := call s piece
    let (s, outputs) := calls call s pieces
    (s, output ++ outputs)

/-- The ciphertext of a plaintext that is passed in pieces. -/
def encrypted (secureRandom : (length : Nat) → Vector UInt8 length) (s : AesCbcState)
    (pieces : List (List UInt8)) : List UInt8 :=
  let (s, output) := s.calls encrypt pieces
  output ++ (s.finalizeEncryption secureRandom).2

/-- What is returned for a ciphertext in pieces before its end is checked. -/
def released (s : AesCbcState) (pieces : List (List UInt8)) : List UInt8 :=
  (s.calls decrypt pieces).2

def decrypted (s : AesCbcState) (pieces : List (List UInt8)) :
    Except CryptologyError (List UInt8) :=
  (fun final => s.released pieces ++ final.2) <$> (s.calls decrypt pieces).1.finalizeDecryption

end AesCbcState
end ErbslandCore.Cryptology

import Shachain2pc.Compat.SessionCalls
import Shachain2pc.Compat.TileProgram
import Shachain2pc.Party.PrecomputeSession
import Shachain2pc.Party.Standalone

/-!
# A party with its session

The jobs and the standalone modes of a party share their steps. The parties exchange a digest
on the main stream and stop unless they agree; they set up a session, authenticate the two
shares of the seed as its inputs, run chunk programs, and open values.

The session is there from the start, with the streams: it is not used before its setup. Each
run of a program takes the next of the nonces which are given.
-/

namespace Shachain2pc

open Rust (Failure Outcome)
open Triples (zoom)
open Ag2pcTriplePool (onStream)

/-- The errors of `PartyError` which a party with a session returns. -/
inductive PartyFailure where
  | session (error : SessionFailure)
  | program (error : ProgramError)
  | standalone (error : StandaloneError)
  | parse (error : ParseError)
  deriving DecidableEq

/-- A session, and how many programs it ran. -/
structure PartySession (S : Type) where
  session : Ag2pcSession S
  programs : ℕ

/-- Fallible and possibly panicking code of a party. -/
abbrev PartyM (S : Type) := EStateM (Failure PartyFailure) (PartySession S)

/-- What a party is given: what its session is built from, the nonces of its programs, and the
gadget. -/
structure PartyBase (S : Type) where
  pool : PoolBase S
  nonces : ℕ → Block
  sha : Circuit

/-- An error of the session. -/
def PartyFailure.ofSession : Failure SessionFailure → Failure PartyFailure
  | .error e => .error (.session e)
  | .panic => .panic

/-- An error of a program builder. -/
def PartyFailure.ofProgram : Failure ProgramError → Failure PartyFailure
  | .error e => .error (.program e)
  | .panic => .panic

namespace PartySession

variable {S A : Type}

/-- Run code on the session. -/
def onSession (prog : SessionM S A) : PartyM S A :=
  zoom PartyFailure.ofSession session (fun session party => { party with session := session }) prog

/-- A program which is built. -/
def buildProgram (program : Outcome ProgramError A) : PartyM S A :=
  ofExcept (program.mapError PartyFailure.ofProgram)

/-- A result of the standalone modes. -/
def onStandalone (result : Except StandaloneError A) : PartyM S A :=
  ofExcept (result.mapError fun e => .error (.standalone e))

/-- `value_from_bits`. -/
def valueFromBits (bits : List UInt8) : PartyM S Value32 :=
  ofExcept ((Value32.fromBitsMsb bits).mapError fun e => .error (.parse e))

/-- An element, or a panic when there is none. -/
def element (wires : List A) (i : ℕ) : PartyM S A := ofExcept (Rust.readSlot wires i)

variable [TranscriptIo S]

/-- `streams.main.flush()`. -/
def flushMain (role : Role) : PartyM S Unit :=
  onSession (Ag2pcSession.onMain role (onStream TranscriptIo.flush))

/-- Send a digest on the main stream. -/
def sendDigest (role : Role) (digest : Value32) : PartyM S Unit :=
  onSession (Ag2pcSession.onMain role (do
    onStream (TranscriptIo.sendData digest.bytes.toList)
    onStream TranscriptIo.flush))

/-- `recv_digest`. -/
def recvDigest (role : Role) : PartyM S Value32 :=
  onSession (Ag2pcSession.onMain role (do
    let digest ← onStream (TranscriptIo.recvData 32)
    return Value32.ofList digest))

/-- `exchange_circuit_digest`: Alice sends first. -/
def exchangeDigest (role : Role) (digest : Value32) : PartyM S Unit :=
  match role with
  | .alice => do
    sendDigest role digest
    let peer ← recvDigest role
    onStandalone (exchangeCircuitDigest digest peer)
  | .bob => do
    let peer ← recvDigest role
    sendDigest role digest
    onStandalone (exchangeCircuitDigest digest peer)

variable (base : PartyBase S)

/-- Set up the session, and flush. -/
def setup (role : Role) : PartyM S Unit := do
  onSession (Ag2pcSession.setup base.pool)
  flushMain role

/-- `run_program` of the session. -/
def runProgram (program : Ag2pcProgram) (inputs : Ag2pcSecureWires) :
    PartyM S Ag2pcSecureWires := do
  let nonce := base.nonces (← get).programs
  modify fun party => { party with programs := party.programs + 1 }
  onSession (Ag2pcSession.runProgram base.pool program inputs nonce)

/-- Build a chunk program and run it. -/
def runChunk (chainBits : List ℕ) (first : Bool) (inputs : Ag2pcSecureWires) :
    PartyM S Ag2pcSecureWires := do
  let program ← buildProgram (chunkFromSha base.sha chainBits first)
  runProgram base program inputs

/-- The bits which a party passes for an owner: its own, or zeros. -/
def ownerInput (role owner : Role) (share : Value32) : List UInt8 :=
  if role = owner then share.toBitsMsb else List.replicate valueBits 0

/-- `authenticate_seed_inputs`: the inputs are Bob's share and then Alice's. -/
def authenticateSeedInputs (role : Role) (share : Value32) : PartyM S Ag2pcSecureWires := do
  let bobInputs ← onSession
    (Ag2pcSession.processInputs base.pool [.bob] [ownerInput role .bob share])
  let aliceInputs ← onSession
    (Ag2pcSession.processInputs base.pool [.alice] [ownerInput role .alice share])
  let bobWires ← element bobInputs 0
  let aliceWires ← element aliceInputs 0
  return .concat [bobWires, aliceWires]

/-- `reveal_public` of wires without labels, as a value. -/
def revealValue (wires : Ag2pcSecureWires) : PartyM S Value32 := do
  let bits ← onSession (Ag2pcSession.revealPublic base.pool wires)
  valueFromBits bits

/-- `end` of the session. -/
def finish : PartyM S Unit := onSession (Ag2pcSession.finish base.pool)

end PartySession

end Shachain2pc

import Mathlib.Data.BitVec
import Whatsvelte.Lib.Run

/-!
# The sender task of `noise_socket.rs`

What follows the handshake: every message is encrypted under a counter and sent in a frame.
-/

namespace Whatsvelte.Noise

abbrev Bytes := List (BitVec 8)

def FRAME_MAX_SIZE : ℕ := 2 ^ 24

/-- `encode_frame_into`: too large a payload is an error. -/
def encodeFrame (payload : Bytes) (header : Option Bytes) : Option Bytes :=
  let len := BitVec.ofNat 32 payload.length
  if payload.length < FRAME_MAX_SIZE then
    some (header.getD [] ++ [len.extractLsb' 16 8, len.extractLsb' 8 8, len.extractLsb' 0 8] ++ payload)
  else none

/-- `NoiseCipher` -/
structure Cipher where
  encrypt : ℕ → Bytes → Option Bytes

def U32_MAX : ℕ := 2 ^ 32 - 1

inductive EncryptSendError
  | counterExhausted
  | crypto
  | framing
  | transport

/-- The sender task, and what it has done. -/
structure Sender where
  writeCounter : ℕ
  /-- The counters that were encrypted under, newest first, and whether the frame was sent. -/
  used : List (ℕ × Bool)

def Sender.init : Sender := ⟨0, []⟩

/-- `process_send_job`; `sent` is how `transport.send` ends. -/
def processSendJob (k : Cipher) (s : Sender) (plaintext : Bytes) (sent : Bool) :
    Sender × Except EncryptSendError Unit :=
  if s.writeCounter = U32_MAX then (s, .error .counterExhausted)
  else
    match k.encrypt s.writeCounter plaintext with
    | none => (s, .error .crypto)
    | some ciphertext =>
      let lost := { s with used := (s.writeCounter, false) :: s.used }
      match encodeFrame ciphertext none with
      | none => (lost, .error .framing)
      | some _ =>
        if sent then (⟨(s.writeCounter + 1) % 2 ^ 32, (s.writeCounter, true) :: s.used⟩, .ok ())
        else (lost, .error .transport)

/-- `sender_task` -/
def senderTask (k : Cipher) (jobs : List (Bytes × Bool)) : Sender :=
  run (fun s job => (processSendJob k s job.1 job.2).1) .init jobs

end Whatsvelte.Noise

import BitcoinGpuMiner.Encoding.Serialize

/-! # A `Node` as a sender

The handlers of one `io_context` run one at a time: those posted by `PushMessage` in the order they were
posted, and the completion handlers of `async_write` whenever a write has ended. A message is the bytes of a
`NetMessageData`, and nothing here depends on them.
-/

namespace BitcoinGpuMiner

set_option autoImplicit false

structure Sender (Message : Type) where
  /-- The handlers posted by `PushMessage` that have not run, given by their messages. -/
  handlers : List Message
  writeNetMessages : List Message
  isDisconnect : Bool
  /-- The writes whose completion handler has not run. -/
  inFlight : List Message
  /-- Every message given to `PushMessage`, every one given to `async_write` and every one that was sent. -/
  posted : List Message
  started : List Message
  sent : List Message
deriving DecidableEq

inductive SenderEvent (Message : Type) where
  | pushMessage (message : Message)
  | pushed
  | writeDone (write : Nat)
  | writeFailed (write : Nat)
  | disconnect

namespace Sender

variable {Message : Type}

def empty : Sender Message := ⟨[], [], false, [], [], [], []⟩

def pushMessage (sender : Sender Message) (message : Message) : Sender Message :=
  { sender with handlers := sender.handlers ++ [message], posted := sender.posted ++ [message] }

/-- Reading the front of an empty queue is undefined. -/
def doWrite (sender : Sender Message) : Option (Sender Message) :=
  if sender.isDisconnect then some sender
  else match sender.writeNetMessages with
  | [] => none
  | front :: _ => some { sender with inFlight := sender.inFlight ++ [front], started := sender.started ++ [front] }

def disconnect (sender : Sender Message) : Sender Message :=
  if sender.isDisconnect then sender else { sender with isDisconnect := true }

/-- The next handler posted by `PushMessage`. -/
def pushed (sender : Sender Message) : Option (Sender Message) :=
  match sender.handlers with
  | [] => none
  | bytes :: handlers =>
    let isWriteIdel := sender.writeNetMessages.isEmpty
    let sender := { sender with handlers := handlers, writeNetMessages := sender.writeNetMessages ++ [bytes] }
    if isWriteIdel then sender.doWrite else some sender

/-- The completion handler of one of the writes. Removing the front of an empty queue is undefined. -/
def writeHandler (sender : Sender Message) (write : Nat) (ec : Bool) : Option (Sender Message) :=
  match sender.inFlight[write]? with
  | none => none
  | some message =>
    let sender := { sender with inFlight := sender.inFlight.eraseIdx write }
    if ec then some sender.disconnect
    else match sender.writeNetMessages with
    | [] => none
    | _ :: rest =>
      let sender := { sender with writeNetMessages := rest, sent := sender.sent ++ [message] }
      if rest.isEmpty then some sender else sender.doWrite

def step (sender : Sender Message) : SenderEvent Message → Option (Sender Message)
  | .pushMessage message => some (sender.pushMessage message)
  | .pushed => sender.pushed
  | .writeDone write => sender.writeHandler write false
  | .writeFailed write => sender.writeHandler write true
  | .disconnect => some sender.disconnect

end Sender

end BitcoinGpuMiner

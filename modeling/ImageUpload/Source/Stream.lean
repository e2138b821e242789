import ImageUpload.Source.Reading

/-!
Reading a list of ranges ahead of a consumer.  The producer reads one range at a
time and hands it over through a channel with a single slot, so at most one chunk
waits in the slot and one in the producer's hand.  `step` is one move of either
side; the moves may interleave in any order.
-/

namespace ImageUpload

structure Chunk where
  range : ByteRange
  data : ByteArray

inductive StreamEnd where
  | finished
  | failed (e : TransferError)
  | panicked
  deriving DecidableEq

structure Stream where
  reader : Reader
  remaining : List ByteRange
  hand : Option Chunk
  slot : Option Chunk
  /-- `none` while the producer is at work. -/
  ended : Option StreamEnd
  /-- Whether the consumer still takes chunks. -/
  wanted : Bool

namespace Stream

inductive Move where
  | read
  | offer
  | close
  | receive
  | drop

def start (r : Reader) (ranges : List ByteRange) : Stream :=
  ⟨r, ranges, none, none, none, true⟩

/-- The next range is read into the producer's hand. -/
def read (s : Stream) : Option Stream :=
  match s.ended, s.hand, s.remaining with
  | none, none, range :: rest =>
    match s.reader.readRange range with
    | (.ok data, r) => some { s with reader := r, remaining := rest, hand := some ⟨range, data⟩ }
    | (.error (.failed e), r) => some { s with reader := r, ended := some (.failed e) }
    | (.error .panicked, r) => some { s with reader := r, ended := some .panicked }
  | _, _, _ => none

/-- The chunk in hand goes into the slot.  With the consumer gone the producer
stops instead. -/
def offer (s : Stream) : Option Stream :=
  match s.ended, s.hand with
  | none, some c =>
    if s.wanted then
      match s.slot with
      | none => some { s with hand := none, slot := some c }
      | some _ => none
    else some { s with hand := none, ended := some .finished }
  | _, _ => none

def close (s : Stream) : Option Stream :=
  match s.ended, s.hand, s.remaining with
  | none, none, [] => some { s with ended := some .finished }
  | _, _, _ => none

def receive (s : Stream) : Option (Chunk × Stream) :=
  if s.wanted then s.slot.map (fun c => (c, { s with slot := none })) else none

def drop (s : Stream) : Stream :=
  { s with wanted := false, slot := none }

/-- Every chunk has been taken and none will follow. -/
def exhausted (s : Stream) : Bool :=
  s.ended.isSome && s.slot.isNone

/-- One move, with the chunk it gives the consumer. -/
def step (s : Stream) : Move → Option (Option Chunk × Stream)
  | .read => s.read.map (fun s => (none, s))
  | .offer => s.offer.map (fun s => (none, s))
  | .close => s.close.map (fun s => (none, s))
  | .receive => s.receive.map (fun (c, s) => (some c, s))
  | .drop => if s.wanted then some (none, s.drop) else none

def error? (s : Stream) : Option TransferError :=
  match s.ended with
  | some (.failed e) => some e
  | _ => none

/-- The move of a consumer that takes `wish` more chunks, or all, as soon as it
can, beside a producer that reads only while nothing waits.  The producer learns
that the consumer is gone when it next has a chunk to offer, so one more range is
read by then. -/
def nextMove (s : Stream) (wish : Option Nat) : Move :=
  if s.wanted ∧ wish = some 0 then .drop
  else if s.slot.isSome then .receive
  else if s.hand.isSome then .offer
  else if s.remaining.isEmpty then .close
  else .read

/-- Run until no move is left, and collect the chunks.  Each range takes a read,
an offer and a receipt. -/
def drain : (moves : Nat) → Option Nat → Stream → List Chunk × Stream
  | 0, _, s => ([], s)
  | moves + 1, wish, s =>
    match s.step (s.nextMove wish) with
    | none => ([], s)
    | some (none, s) => drain moves wish s
    | some (some c, s) =>
      let (rest, s) := drain moves (wish.map (· - 1)) s
      (c :: rest, s)

end Stream

namespace Reader

/-- What a consumer of `ranges` gets that stops after `wish` chunks, or takes
all. -/
def stream (r : Reader) (ranges : List ByteRange) (wish : Option Nat) :
    List Chunk × Option TransferError :=
  let (chunks, s) := Stream.drain (3 * ranges.length + 3) wish (Stream.start r ranges)
  (chunks, s.error?)

end Reader
end ImageUpload

import BitcoinGpuMiner.Encoding.Streaming
import BitcoinGpuMiner.Wire.Version

/-! # The read loop of a connection

`DoReadHeader` and `DoReadBody` share one buffer that only grows: the header goes to its start, and a body is read
behind the header after the buffer has been enlarged by the body's size. What an earlier message left behind the
body stays there and is handed on.
-/

namespace BitcoinGpuMiner

set_option autoImplicit false

def maxProtocolMessageLength : Nat := 4000000

/-- `NetMessageData::ParseBodySize`. -/
def parseBodySize (data : Bytes) : Nat := readLE ((data.drop 16).take 4)

structure Connection where
  /-- `_readCacheNetMessage`. -/
  buffer : Bytes
  isDisconnect : Bool
  /-- What each call of `ProcessMessages` has copied. -/
  handed : List Bytes

namespace Connection

def initial : Connection := ⟨[], false, []⟩

def processMessages (conn : Connection) : Connection := { conn with handed := conn.handed ++ [conn.buffer] }

/-- `DoReadHeader` makes room for a header. -/
def doReadHeader (conn : Connection) : Connection := { conn with buffer := resize conn.buffer headerSize }

/-- `DoReadBody` makes room for a body behind everything there is. -/
def doReadBody (conn : Connection) (size : Nat) : Connection :=
  { conn with buffer := resize conn.buffer (conn.buffer.length + size) }

/-- The bytes of an `async_read` arrive. -/
def arrive (conn : Connection) (offset : Nat) (bytes : Bytes) : Connection :=
  { conn with buffer := memcpy conn.buffer offset bytes }

/-- The loop on what the socket delivers. A message takes at least a header, so the number of bytes is enough. -/
def receive : Nat → Connection → Bytes → Connection
  | 0, conn, _ => conn
  | fuel + 1, conn, input =>
    if conn.isDisconnect then conn
    else if input.length < headerSize then conn.doReadHeader
    else
      let conn := conn.doReadHeader.arrive 0 (input.take headerSize)
      let input := input.drop headerSize
      let size := parseBodySize conn.buffer
      if size = 0 then receive fuel conn.processMessages input
      else if size > maxProtocolMessageLength then { conn with isDisconnect := true }
      else if input.length < size then conn.doReadBody size
      else receive fuel ((conn.doReadBody size).arrive headerSize (input.take size)).processMessages (input.drop size)

def received (input : Bytes) : Connection := receive input.length initial input

end Connection

/-- A header whose size field is the length of the body, and the body. -/
structure Frame where
  header : Bytes
  body : Bytes
  length_header : header.length = headerSize
  size : parseBodySize header = body.length
  limit : body.length ≤ maxProtocolMessageLength

def Frame.bytes (frame : Frame) : Bytes := frame.header ++ frame.body

namespace Connection

/-- What stands behind the place of the header. -/
def left (conn : Connection) : Bytes := (resize conn.buffer headerSize).drop headerSize

/-- What a frame makes of the bytes behind the header. -/
def cover (left body : Bytes) : Bytes := body ++ (left ++ List.replicate body.length 0).drop body.length

def after (conn : Connection) (frame : Frame) : Connection :=
  { conn with
    buffer := frame.header ++ cover conn.left frame.body
    handed := conn.handed ++ [frame.header ++ cover conn.left frame.body] }

theorem length_cover (left body : Bytes) : (cover left body).length = left.length + body.length := by
  rw [cover, List.length_append, List.length_drop, List.length_append, List.length_replicate]
  omega

theorem cover_nil_left (body : Bytes) : cover [] body = body := by
  rw [cover, List.nil_append, List.drop_of_length_le (Nat.le_of_eq List.length_replicate), List.append_nil]

theorem cover_nil (left : Bytes) : cover left [] = left := by
  rw [cover, List.length_nil, List.replicate_zero, List.append_nil, List.drop_zero, List.nil_append]

theorem left_after (conn : Connection) (frame : Frame) : (conn.after frame).left = cover conn.left frame.body := by
  have hLength : headerSize - (conn.after frame).buffer.length = 0 := by
    rw [after, List.length_append, frame.length_header]
    omega
  rw [left, resize, hLength, List.replicate_zero, List.append_nil, after, List.drop_left' frame.length_header]

def opened (conn : Connection) (frame : Frame) : Connection := { conn with buffer := frame.header ++ conn.left }

theorem arrive_header (conn : Connection) (frame : Frame) :
    conn.doReadHeader.arrive 0 frame.header = conn.opened frame := by
  rw [arrive, memcpy, List.take_zero, List.nil_append, Nat.zero_add, frame.length_header]
  rfl

/-- The header is in its place, so its size field is the body's length. -/
theorem parseBodySize_opened (conn : Connection) (frame : Frame) :
    parseBodySize (conn.opened frame).buffer = frame.body.length := by
  have hLength : frame.header.length = 24 := frame.length_header
  rw [← frame.size, parseBodySize, parseBodySize, opened, List.drop_append_of_le_length (by omega),
    List.take_append_of_le_length (by rw [List.length_drop]; omega)]

theorem processMessages_opened (conn : Connection) (frame : Frame) (hEmpty : frame.body = []) :
    (conn.opened frame).processMessages = conn.after frame := by
  rw [after, hEmpty, cover_nil]
  rfl

theorem arrive_body (conn : Connection) (frame : Frame) :
    (((conn.opened frame).doReadBody frame.body.length).arrive headerSize frame.body).processMessages =
      conn.after frame := by
  have hGrow : ((conn.opened frame).doReadBody frame.body.length).buffer =
      frame.header ++ (conn.left ++ List.replicate frame.body.length 0) := by
    rw [doReadBody, resize, Nat.add_sub_cancel_left, opened, List.append_assoc]
  have hBuffer : memcpy ((conn.opened frame).doReadBody frame.body.length).buffer headerSize frame.body =
      frame.header ++ cover conn.left frame.body := by
    rw [hGrow, memcpy, List.take_left' frame.length_header, ← List.drop_drop, List.drop_left' frame.length_header,
      List.append_assoc, cover]
  rw [arrive, hBuffer]
  rfl

theorem receive_frame (fuel : Nat) {conn : Connection} (hOpen : conn.isDisconnect = false) (frame : Frame) (rest : Bytes) :
    receive (fuel + 1) conn (frame.bytes ++ rest) = receive fuel (conn.after frame) rest := by
  have hHeader : (frame.bytes ++ rest).take headerSize = frame.header := by
    rw [Frame.bytes, List.append_assoc, List.take_left' frame.length_header]
  have hRest : (frame.bytes ++ rest).drop headerSize = frame.body ++ rest := by
    rw [Frame.bytes, List.append_assoc, List.drop_left' frame.length_header]
  have hEnough : ¬ (frame.bytes ++ rest).length < headerSize := by
    rw [Frame.bytes, List.length_append, List.length_append, frame.length_header]
    omega
  have hBody : ¬ (frame.body ++ rest).length < frame.body.length := by
    rw [List.length_append]
    omega
  rw [receive, hOpen, if_neg Bool.false_ne_true, if_neg hEnough, hHeader, hRest, arrive_header]
  dsimp only
  rw [parseBodySize_opened]
  by_cases hEmpty : frame.body = []
  · rw [if_pos (List.length_eq_zero_iff.mpr hEmpty), processMessages_opened conn frame hEmpty, hEmpty, List.nil_append]
  · rw [if_neg (fun hZero => hEmpty (List.length_eq_zero_iff.mp hZero)), if_neg (Nat.not_lt.mpr frame.limit), if_neg hBody,
      List.take_left, List.drop_left, arrive_body]

theorem receive_frames (frames : List Frame) (extra : Nat) {conn : Connection} (hOpen : conn.isDisconnect = false) :
    receive (frames.length + extra) conn (frames.flatMap Frame.bytes) = receive extra (frames.foldl after conn) [] := by
  induction frames generalizing conn with
  | nil => rw [List.length_nil, Nat.zero_add, List.flatMap_nil, List.foldl_nil]
  | cons frame rest ih =>
    rw [List.length_cons, Nat.add_right_comm, List.flatMap_cons, receive_frame _ hOpen, List.foldl_cons]
    exact ih hOpen

theorem length_le_flatMap (frames : List Frame) : frames.length ≤ (frames.flatMap Frame.bytes).length := by
  induction frames with
  | nil => exact Nat.le_refl 0
  | cons frame rest ih =>
    rw [List.flatMap_cons, List.length_append, Frame.bytes, List.length_append, frame.length_header, List.length_cons,
      headerSize]
    omega

theorem received_frames (frames : List Frame) :
    ∃ extra, received (frames.flatMap Frame.bytes) = receive extra (frames.foldl after initial) [] := by
  obtain ⟨extra, hExtra⟩ := Nat.exists_eq_add_of_le (length_le_flatMap frames)
  refine ⟨extra, ?_⟩
  rw [received, hExtra]
  exact receive_frames frames extra rfl

theorem handed_receive_nil (fuel : Nat) (conn : Connection) : (receive fuel conn []).handed = conn.handed := by
  cases fuel with
  | zero => rfl
  | succ fuel =>
    rw [receive]
    split
    · rfl
    · rw [if_pos (by decide)]
      rfl

theorem length_buffer_receive_nil (fuel : Nat) (conn : Connection) :
    (receive fuel conn []).buffer.length ≤ headerSize + conn.left.length := by
  have hLeft : conn.left.length = conn.buffer.length + (headerSize - conn.buffer.length) - headerSize := by
    rw [left, List.length_drop, resize, List.length_append, List.length_replicate]
  cases fuel with
  | zero =>
    rw [receive]
    omega
  | succ fuel =>
    rw [receive]
    split
    · omega
    · rw [if_pos (by decide), doReadHeader, resize, List.length_append, List.length_replicate]
      omega

section Trace

def trace : Bytes → List Frame → List Bytes
  | _, [] => []
  | left, frame :: rest => (frame.header ++ cover left frame.body) :: trace (cover left frame.body) rest

theorem handed_foldl (frames : List Frame) (conn : Connection) :
    (frames.foldl after conn).handed = conn.handed ++ trace conn.left frames := by
  induction frames generalizing conn with
  | nil => rw [List.foldl_nil, trace, List.append_nil]
  | cons frame rest ih =>
    rw [List.foldl_cons, ih, left_after, trace, after, List.append_assoc]
    rfl

theorem length_left_foldl (frames : List Frame) (conn : Connection) :
    (frames.foldl after conn).left.length = conn.left.length + (frames.map fun frame => frame.body.length).sum := by
  induction frames generalizing conn with
  | nil => rfl
  | cons frame rest ih =>
    rw [List.foldl_cons, ih, left_after, length_cover, List.map_cons, List.sum_cons, Nat.add_assoc]

theorem left_eq_nil {left : Bytes} {frame : Frame} (hOwn : frame.header ++ cover left frame.body = frame.bytes) :
    left = [] := by
  have hLength := congrArg List.length hOwn
  rw [Frame.bytes, List.length_append, List.length_append, length_cover] at hLength
  apply List.length_eq_zero_iff.mp
  omega

theorem trace_eq_iff (frames : List Frame) :
    trace [] frames = frames.map Frame.bytes ↔ ∀ frame ∈ frames.dropLast, frame.body = [] := by
  induction frames with
  | nil => simp [trace]
  | cons frame rest ih =>
    rw [trace, cover_nil_left, ← Frame.bytes, List.map_cons, List.cons_inj_right]
    cases rest with
    | nil => simp [trace]
    | cons next rest =>
      rw [List.dropLast_cons_cons, List.forall_mem_cons, ← ih]
      constructor
      · intro hTrace
        have hEmpty : frame.body = [] := left_eq_nil (List.cons.inj hTrace).1
        rw [hEmpty] at hTrace
        exact ⟨hEmpty, hTrace⟩
      · rintro ⟨hEmpty, hTrace⟩
        rw [hEmpty]
        exact hTrace

theorem sum_body_le {frames : List Frame} (hEmpty : ∀ frame ∈ frames.dropLast, frame.body = []) :
    (frames.map fun frame => frame.body.length).sum ≤ maxProtocolMessageLength := by
  induction frames with
  | nil => exact Nat.zero_le _
  | cons frame rest ih =>
    cases rest with
    | nil => exact frame.limit
    | cons next rest =>
      rw [List.dropLast_cons_cons, List.forall_mem_cons] at hEmpty
      rw [List.map_cons, List.sum_cons, hEmpty.1, List.length_nil, Nat.zero_add]
      exact ih hEmpty.2

end Trace

end Connection

/-- On a connection that receives the frames, every message is handed on by itself, so that whatever is decoded
from it depends on its own bytes only, and the buffer stays within the size of one message. -/
structure Separate (frames : List Frame) : Prop where
  handed : (Connection.received (frames.flatMap Frame.bytes)).handed = frames.map Frame.bytes
  decoded : ∀ (α : Type) (decode : Bytes → α), (Connection.received (frames.flatMap Frame.bytes)).handed.map decode =
    frames.map fun frame => decode frame.bytes
  bounded : ∀ earlier, earlier <+: frames → (Connection.received (earlier.flatMap Frame.bytes)).buffer.length ≤
    headerSize + maxProtocolMessageLength

/-- Only the last message may have a body. -/
theorem separate_iff (frames : List Frame) : Separate frames ↔ ∀ frame ∈ frames.dropLast, frame.body = [] := by
  have hHanded : (Connection.received (frames.flatMap Frame.bytes)).handed = Connection.trace [] frames := by
    obtain ⟨extra, hReceived⟩ := Connection.received_frames frames
    rw [hReceived, Connection.handed_receive_nil, Connection.handed_foldl]
    rfl
  constructor
  · intro hSeparate
    exact (Connection.trace_eq_iff frames).mp (hHanded.symm.trans hSeparate.handed)
  · intro hEmpty
    have hOwn := hHanded.trans ((Connection.trace_eq_iff frames).mpr hEmpty)
    refine ⟨hOwn, ?_, ?_⟩
    · intro α decode
      rw [hOwn, List.map_map]
      rfl
    · rintro earlier ⟨later, rfl⟩
      obtain ⟨extra, hReceived⟩ := Connection.received_frames earlier
      have hBuffer := Connection.length_buffer_receive_nil extra (earlier.foldl Connection.after Connection.initial)
      have hSum := Connection.sum_body_le hEmpty
      have hStart : Connection.initial.left.length = 0 := rfl
      rw [Connection.length_left_foldl, hStart, ← hReceived] at hBuffer
      rw [List.map_append, List.sum_append] at hSum
      omega

/-- A message of zeros but for the bytes that a short `version` message leaves uncovered. -/
def Frame.long : Frame where
  header := List.replicate 16 0 ++ [86, 0, 0, 0] ++ List.replicate 4 0
  body := List.replicate 80 0 ++ [0, 5, 0, 0, 0, 1]
  length_header := rfl
  size := rfl
  limit := by decide

/-- A `version` message that ends before its optional fields. -/
def Frame.version : Frame where
  header := List.replicate 16 0 ++ [80, 0, 0, 0] ++ List.replicate 4 0
  body := List.replicate 80 0
  length_header := rfl
  size := rfl
  limit := by decide

/-- After the long message the short one is read with a start height that nobody has sent in it. -/
theorem exists_leak : ∃ (first second : Frame) (data : Bytes) (stale : Nat → UInt8) (old : NetMessageVersion),
    (Connection.received ([first, second].flatMap Frame.bytes)).handed = [first.bytes, data] ∧
    data ≠ second.bytes ∧
    (readVersionMessage stale old second.bytes).map NetMessageVersion.startHeight = some 0 ∧
    (readVersionMessage stale old data).map NetMessageVersion.startHeight = some 5 ∧
    ¬ Separate [first, second] := by
  let old : NetMessageVersion := ⟨0, 0, 0, ⟨0, List.replicate 16 0, 0⟩, ⟨0, List.replicate 16 0, 0⟩, 0, [], 0, false⟩
  let data := Frame.version.bytes ++ ([0, 5, 0, 0, 0, 1] ++ List.replicate 80 0)
  have hHanded : (Connection.received ([Frame.long, Frame.version].flatMap Frame.bytes)).handed =
      [Frame.long.bytes, data] := by decide +kernel
  have hData : data ≠ Frame.version.bytes := by decide
  refine ⟨.long, .version, data, fun _ => 0, old, hHanded, hData, by decide +kernel, by decide +kernel, ?_⟩
  intro hSeparate
  have hBoth := hHanded.symm.trans hSeparate.handed
  exact hData (List.cons.inj (List.cons.inj hBoth).2).1

end BitcoinGpuMiner

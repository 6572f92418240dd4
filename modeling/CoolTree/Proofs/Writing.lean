import CoolTree.Command.Batch
import Mathlib.Data.List.Infix

/-!
# Writing to sinks with some room

A sink takes bytes in the order in which they are written, and what it takes is missing from its
room. Of bytes that do not fit it takes as many as there is room for. Lines that go to one channel
are one row of bytes, and leave the sink of the other channel as it is.
-/

namespace CoolTree

namespace Sink

def bytes (s : Sink) : List UInt8 :=
  s.held.data.toList

/-- A sink that has taken bytes behind those it had. -/
structure Takes (before : Sink) (bytes : List UInt8) (after : Sink) : Prop where
  bytes_eq : after.bytes = before.bytes ++ bytes
  room_eq : before.room = after.room.map (· + bytes.length)

/-- What becomes of bytes that are written to a sink: it takes all of them, or those for which there
is room, and then it is full. -/
inductive Writes (before : Sink) : List UInt8 → Sink → Bool → Prop
  | whole {bytes : List UInt8} {after : Sink} (takes : before.Takes bytes after) :
      Writes before bytes after true
  | cut {part rest : List UInt8} {after : Sink} (takes : before.Takes part after)
      (rest_ne : rest ≠ []) (full : after.room = some 0) : Writes before (part ++ rest) after false

namespace Takes

variable {a b c : Sink} {xs ys : List UInt8}

theorem nil (a : Sink) : a.Takes [] a :=
  ⟨(List.append_nil _).symm, by simp⟩

theorem trans (h : a.Takes xs b) (h' : b.Takes ys c) : a.Takes (xs ++ ys) c where
  bytes_eq := by rw [h'.bytes_eq, h.bytes_eq, List.append_assoc]
  room_eq := by
    rw [h.room_eq, h'.room_eq, Option.map_map]
    congr 1
    funext room
    simp only [Function.comp_apply, List.length_append]
    omega

theorem bytes_of_ofRoom {room : Option Nat} (h : (ofRoom room).Takes xs b) : b.bytes = xs :=
  h.bytes_eq.trans (List.nil_append xs)

theorem length_le {room : Nat} (h : (ofRoom (some room)).Takes xs b) : xs.length ≤ room := by
  have hroom : some room = b.room.map (· + xs.length) := h.room_eq
  obtain ⟨left, -, hleft⟩ := Option.map_eq_some_iff.mp hroom.symm
  omega

/-- A sink that is full has taken as many bytes as it had room for. -/
theorem room_eq_length {room : Option Nat} (h : (ofRoom room).Takes xs b)
    (hfull : b.room = some 0) : room = some xs.length := by
  have hroom : room = b.room.map (· + xs.length) := h.room_eq
  rw [hroom, hfull, Option.map_some, Nat.zero_add]

end Takes

namespace Writes

variable {a b c : Sink} {xs ys : List UInt8} {fits : Bool}

theorem takes (h : a.Writes xs b true) : a.Takes xs b := by
  cases h with
  | whole takes => exact takes

theorem exists_part (h : a.Writes xs b false) :
    ∃ part rest, xs = part ++ rest ∧ rest ≠ [] ∧ a.Takes part b ∧ b.room = some 0 := by
  cases h with
  | cut takes rest_ne full => exact ⟨_, _, rfl, rest_ne, takes, full⟩

theorem append (h : a.Writes xs b true) (h' : b.Writes ys c fits) :
    a.Writes (xs ++ ys) c fits := by
  cases h' with
  | whole takes => exact .whole (h.takes.trans takes)
  | cut takes rest_ne full =>
      rw [← List.append_assoc]
      exact .cut (h.takes.trans takes) rest_ne full

/-- Behind the first byte that does not fit nothing is written. -/
theorem stop (h : a.Writes xs b false) (ys : List UInt8) : a.Writes (xs ++ ys) b false := by
  cases h with
  | cut takes rest_ne full =>
      rw [List.append_assoc]
      exact .cut takes (by simp [rest_ne]) full

end Writes

theorem writes_write (s : Sink) (text : String) :
    s.Writes (Text.encodeUtf8 text) (s.write text).1 (s.write text).2 := by
  obtain ⟨held, room⟩ := s
  cases room with
  | none => exact .whole ⟨ByteArray.toList_data_append, rfl⟩
  | some room =>
      have hsize : (Text.encodeUtf8 text).length = text.toUTF8.size := by
        simp [Text.encodeUtf8]
      by_cases hle : text.toUTF8.size ≤ room
      · simp only [write, hle, if_true]
        refine .whole ⟨ByteArray.toList_data_append, ?_⟩
        simp only [Option.map_some, hsize]
        rw [Nat.sub_add_cancel hle]
      · have hroom : room < (Text.encodeUtf8 text).length := by omega
        have hpart : (text.toUTF8.extract 0 room).data.toList =
            (Text.encodeUtf8 text).take room := by
          simp [ByteArray.data_extract, Text.encodeUtf8]
        simp only [write, hle, if_false]
        rw [← List.take_append_drop room (Text.encodeUtf8 text)]
        refine .cut ⟨?_, ?_⟩ ?_ rfl
        · rw [bytes, ByteArray.toList_data_append, hpart]
          rfl
        · simp [Nat.min_eq_left hroom.le]
        · simpa using hroom

end Sink

namespace Sinks

def sink (s : Sinks) : Channel → Sink
  | .output => s.output
  | .diagnostics => s.diagnostics

def set (s : Sinks) : Channel → Sink → Sinks
  | .output, sink => { s with output := sink }
  | .diagnostics, sink => { s with diagnostics := sink }

def ofRooms (rooms : Channel → Option Nat) : Sinks :=
  ⟨.ofRoom (rooms .output), .ofRoom (rooms .diagnostics)⟩

@[simp] theorem sink_set (s : Sinks) (c : Channel) (k : Sink) : (s.set c k).sink c = k := by
  cases c <;> rfl

@[simp] theorem set_sink (s : Sinks) (c : Channel) : s.set c (s.sink c) = s := by
  cases c <;> rfl

@[simp] theorem set_set (s : Sinks) (c : Channel) (k l : Sink) :
    (s.set c k).set c l = s.set c l := by
  cases c <;> rfl

@[simp] theorem sink_ofRooms (rooms : Channel → Option Nat) (c : Channel) :
    (ofRooms rooms).sink c = .ofRoom (rooms c) := by
  cases c <;> rfl

theorem write_cons (s : Sinks) (c : Channel) (text : String) (rest : List (Channel × String)) :
    s.write ((c, text) :: rest) =
      if ((s.sink c).write text).2 then (s.set c ((s.sink c).write text).1).write rest
      else (s.set c ((s.sink c).write text).1, false) := by
  obtain ⟨output, diagnostics⟩ := s
  cases c with
  | output =>
      rw [write, sink]
      cases output.write text with
      | mk after fits => cases fits <;> rfl
  | diagnostics =>
      rw [write, sink]
      cases diagnostics.write text with
      | mk after fits => cases fits <;> rfl

theorem write_append (s : Sinks) (lines rest : List (Channel × String)) :
    s.write (lines ++ rest) =
      if (s.write lines).2 then (s.write lines).1.write rest else ((s.write lines).1, false) := by
  induction lines generalizing s with
  | nil => simp [write]
  | cons line lines ih =>
      obtain ⟨c, text⟩ := line
      rw [List.cons_append, write_cons, write_cons, ih]
      cases ((s.sink c).write text).2 <;> rfl

/-- Lines for one channel are written to its sink as one row of bytes. -/
theorem write_lines (s : Sinks) (c : Channel) (texts : List String) :
    ∃ after fits, s.write (texts.map (c, ·)) = (s.set c after, fits) ∧
      (s.sink c).Writes (texts.flatMap Text.encodeUtf8) after fits := by
  induction texts generalizing s with
  | nil => exact ⟨s.sink c, true, by simp [write], .whole (.nil _)⟩
  | cons text texts ih =>
      have hfirst := (s.sink c).writes_write text
      rw [List.map_cons, write_cons, List.flatMap_cons]
      cases hfits : ((s.sink c).write text).2 with
      | false =>
          rw [hfits] at hfirst
          exact ⟨_, false, rfl, hfirst.stop _⟩
      | true =>
          rw [hfits] at hfirst
          obtain ⟨after, fits, hwrite, hwrites⟩ := ih (s.set c ((s.sink c).write text).1)
          rw [sink_set] at hwrites
          rw [set_set] at hwrite
          exact ⟨after, fits, hwrite, hfirst.append hwrites⟩

end Sinks

end CoolTree

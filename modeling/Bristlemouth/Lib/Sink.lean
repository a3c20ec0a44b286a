import Bristlemouth.Lib.Bytes

/-!
# Sinks

A sink takes bytes piece by piece. A writer that is the same over every sink can be looked at over a `Log`,
which keeps the pieces: any other sink ends as it would had the pieces been put into it.
-/

set_option autoImplicit false

namespace Bristlemouth

/-- Where bytes go. -/
class Sink (S : Type) where
  put : S → Bytes → S

namespace Sink

variable {S T : Type} [Sink S] [Sink T]

def putAll (s : S) (pieces : List Bytes) : S := pieces.foldl put s

@[simp] theorem putAll_nil (s : S) : putAll s [] = s := rfl

@[simp] theorem putAll_cons (s : S) (piece : Bytes) (pieces : List Bytes) :
    putAll s (piece :: pieces) = putAll (put s piece) pieces := rfl

theorem putAll_append (s : S) (a b : List Bytes) : putAll s (a ++ b) = putAll (putAll s a) b :=
  List.foldl_append ..

/-- What is put goes through the map. -/
def Carries (f : S → T) : Prop := ∀ s bytes, f (put s bytes) = put (f s) bytes

/-- The pieces as they came. -/
structure Log where
  pieces : List Bytes

instance : Sink Log where
  put log bytes := ⟨log.pieces ++ [bytes]⟩

@[simp] theorem pieces_put (log : Log) (bytes : Bytes) : (put log bytes).pieces = log.pieces ++ [bytes] := rfl

/-- The bytes that were put. -/
def Log.bytes (log : Log) : Bytes := log.pieces.flatten

@[simp] theorem bytes_put (log : Log) (bytes : Bytes) : (put log bytes).bytes = log.bytes ++ bytes := by
  rw [Log.bytes, pieces_put, List.flatten_append, List.flatten_singleton]
  rfl

/-- A log is played into a sink. -/
def Log.play (s : S) (log : Log) : S := putAll s log.pieces

theorem carries_play (s : S) : Carries (Log.play s) := by
  intro log bytes
  rw [Log.play, pieces_put, putAll_append]
  rfl

@[simp] theorem play_empty (s : S) : Log.play s ⟨[]⟩ = s := rfl

/-- A sink to which a piece is the same whether it comes whole or in parts. -/
class Streams (S : Type) [Sink S] : Prop where
  put_nil : ∀ s : S, put s [] = s
  put_append : ∀ (s : S) (a b : Bytes), put s (a ++ b) = put (put s a) b

/-- Such a sink only sees the bytes. -/
theorem play_eq [Streams S] (s : S) (log : Log) : log.play s = put s log.bytes := by
  obtain ⟨pieces⟩ := log
  induction pieces generalizing s with
  | nil => exact (Streams.put_nil s).symm
  | cons piece pieces ih => exact (ih (put s piece)).trans (Streams.put_append s piece pieces.flatten).symm

end Sink

end Bristlemouth

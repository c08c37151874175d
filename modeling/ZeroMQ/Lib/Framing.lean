/-!
# Streams of frames

A stream is cut into frames by the frames themselves: each begins with a header
of a fixed length, and the header tells how long the frame is.  `split` finds
the frames that are complete; what is left of the stream is the beginning of
the next one.

## Main results

* `Framing.split_flatten_append` — a stream that begins with frames is cut into
  them, whatever follows.
* `Framing.mem_split` — a frame that comes after frames is found.
* `Framing.split_initial` — the beginning of a stream of frames has no other
  frames.
-/

namespace ZeroMQ.Lib

/-- How a frame tells its length: only its header counts, and the frame is at
least as long as that. -/
structure Framing (α : Type) where
  header : Nat
  size : List α → Nat
  header_pos : 0 < header
  header_le : ∀ l, header ≤ size l
  size_append : ∀ l more, header ≤ l.length → size (l ++ more) = size l

namespace Framing

variable {α : Type} (F : Framing α)

/-- A list that is one frame. -/
def IsFrame (frame : List α) : Prop := frame.length = F.size frame

/-- The complete frames at the beginning of a stream. -/
def split (stream : List α) : List (List α) :=
  if F.header ≤ stream.length ∧ F.size stream ≤ stream.length then
    stream.take (F.size stream) :: split (stream.drop (F.size stream))
  else []
termination_by stream.length
decreasing_by
  next h =>
    have := F.header_pos
    have := F.header_le stream
    rw [List.length_drop]
    omega

variable {F} {frames : List (List α)}

theorem split_append {frame : List α} (h : F.IsFrame frame)
    (more : List α) : F.split (frame ++ more) = frame :: F.split more := by
  have hlength : frame.length = F.size frame := h
  have hheader : F.header ≤ frame.length := by
    rw [hlength]
    exact F.header_le frame
  have hsize : F.size (frame ++ more) = frame.length := by
    rw [F.size_append frame more hheader, hlength]
  rw [split, if_pos, hsize, List.take_left, List.drop_left]
  rw [hsize, List.length_append]
  omega

/-- A stream that begins with frames is cut into them. -/
theorem split_flatten_append (h : ∀ frame ∈ frames, F.IsFrame frame)
    (more : List α) :
    F.split (frames.flatten ++ more) = frames ++ F.split more := by
  induction frames with
  | nil => rfl
  | cons frame frames ih =>
      rw [List.forall_mem_cons] at h
      rw [List.flatten_cons, List.append_assoc, split_append h.1, ih h.2,
        List.cons_append]

/-- A frame that comes after frames is found, whatever follows it. -/
theorem mem_split {frame stream : List α}
    (h : ∀ frame ∈ frames, F.IsFrame frame) (hframe : F.IsFrame frame)
    (hstream : frames.flatten ++ frame <+: stream) :
    frame ∈ F.split stream := by
  obtain ⟨more, rfl⟩ := hstream
  rw [List.append_assoc, split_flatten_append h, split_append hframe]
  exact List.mem_append_right _ (List.mem_cons_self ..)

/-- The beginning of a stream of frames is cut into the first of them. -/
theorem split_initial {stream : List α} (h : ∀ frame ∈ frames, F.IsFrame frame)
    (hstream : stream <+: frames.flatten) : F.split stream <+: frames := by
  induction frames generalizing stream with
  | nil =>
      have := F.header_pos
      refine List.prefix_nil.mpr ?_
      rw [List.prefix_nil.mp hstream, split, if_neg]
      rw [List.length_nil]
      omega
  | cons frame frames ih =>
      rw [List.forall_mem_cons] at h
      rw [List.flatten_cons] at hstream
      by_cases hlen : frame.length ≤ stream.length
      · obtain ⟨rest, rfl⟩ :=
          List.prefix_of_prefix_length_le (List.prefix_append ..) hstream hlen
        rw [split_append h.1, List.prefix_cons_inj]
        exact ih h.2 ((List.prefix_append_right_inj frame).mp hstream)
      · -- the frame is not complete: its header tells so, if it is there
        obtain ⟨more, hmore⟩ := List.prefix_of_prefix_length_le hstream
          (List.prefix_append ..) (by omega)
        rw [split, if_neg]
        · exact List.nil_prefix
        · rintro ⟨hheader, hsize⟩
          have hframe : frame.length = F.size frame := h.1
          rw [← hmore, F.size_append stream more hheader, hmore] at hframe
          omega

end Framing

end ZeroMQ.Lib

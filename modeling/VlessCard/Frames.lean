/-
A stream of frames, each a head of fixed length and a body as long as the head says.

What a reader gets of such a stream is what the bodies hold, every element with the tag of its
frame. It is read off the stream by taking it apart at its front, whether or not it ends with a
frame, so that it can be compared with what a reader gets of another stream that goes on the same.
-/
import Mathlib

set_option autoImplicit false

namespace VlessCard.Frames

variable {α τ : Type}

structure Format (α τ : Type) where
  headLen : ℕ
  pos : 0 < headLen
  size : List α → ℕ
  tag : List α → τ

/-- A complete frame. -/
structure Frame (F : Format α τ) where
  head : List α
  body : List α
  length_head : head.length = F.headLen
  length_body : body.length = F.size head

def Frame.bytes {F : Format α τ} (f : Frame F) : List α := f.head ++ f.body

variable (F : Format α τ)

/-- What stands in the bodies, each element with the tag of its frame. -/
def content (l : List α) : List (τ × α) :=
  if F.headLen ≤ l.length then
    ((l.drop F.headLen).take (F.size (l.take F.headLen))).map (F.tag (l.take F.headLen), ·) ++
      content ((l.drop F.headLen).drop (F.size (l.take F.headLen)))
  else []
termination_by l.length
decreasing_by
  have hpos := F.pos
  simp only [List.length_drop]
  omega

variable {F}

/-! ## Content

A reader sees the elements in the bodies, each with the tag of its frame, and not where one frame
ends. So frames of one tag may be cut and joined without a difference. -/

theorem content_head {head : List α} (hlen : head.length = F.headLen) (rest : List α) :
    content F (head ++ rest) = (rest.take (F.size head)).map (F.tag head, ·) ++ content F (rest.drop (F.size head)) := by
  rw [content, if_pos (by rw [List.length_append]; omega), List.take_left' hlen, List.drop_left' hlen]

theorem content_frame (f : Frame F) (rest : List α) :
    content F (f.bytes ++ rest) = f.body.map (F.tag f.head, ·) ++ content F rest := by
  unfold Frame.bytes
  rw [List.append_assoc, content_head f.length_head, List.take_left' f.length_body, List.drop_left' f.length_body]

theorem content_frames {t : τ} (fs : List (Frame F)) (htag : ∀ f ∈ fs, F.tag f.head = t) (rest : List α) :
    content F (fs.flatMap Frame.bytes ++ rest) = (fs.flatMap Frame.body).map (t, ·) ++ content F rest := by
  induction fs with
  | nil => rfl
  | cons f fs ih =>
    rw [List.flatMap_cons, List.append_assoc, content_frame, htag f List.mem_cons_self,
      ih fun g hg => htag g (List.mem_cons_of_mem f hg), List.flatMap_cons, List.map_append, List.append_assoc]

/-- **Cut into several frames with one tag, a frame reads the same**, also where it is not complete
yet: whatever follows then completes the last piece as it would have completed the whole. -/
theorem content_split {head last : List α} (hhead : head.length = F.headLen) (hlast : last.length = F.headLen)
    (htag : F.tag last = F.tag head) {fs : List (Frame F)} (hfs : ∀ f ∈ fs, F.tag f.head = F.tag head)
    (hsize : F.size head = (fs.flatMap Frame.body).length + F.size last) (rest : List α) :
    content F (fs.flatMap Frame.bytes ++ (last ++ rest)) = content F (head ++ (fs.flatMap Frame.body ++ rest)) := by
  rw [content_frames fs hfs, content_head hlast, content_head hhead, htag, hsize, List.take_length_add_append,
    List.drop_length_add_append, List.map_append, List.append_assoc]

end VlessCard.Frames

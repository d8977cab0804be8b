import LimitBook.Proofs.Book.Update

namespace LimitBook.Book

variable {α : Type}

def header (b : Book α) : Text × Option α := (b.symbol, b.sequenceId)

@[simp]
theorem setLadder_header (b : Book α) (side : Side) (l : Ladder α) :
    (b.setLadder side l).header = b.header := by cases side <;> rfl

@[simp]
theorem release_header (b : Book α) (os : List (Order α)) : (b.release os).header = b.header := by
  rw [release_eq]
  rfl

variable [Scalar α] {b : Book α} {u : LevelUpdate α}

theorem resize_header : (b.resize u).header = b.header := by
  unfold Book.resize
  simp only
  split <;> simp

theorem stamp_header (now : α) : (b.stamp u now).header = b.header := by
  unfold Book.stamp
  simp only
  split
  · rfl
  · split
    · simp
    · exact setLadder_header ..

theorem dropAggregate_header : (b.dropAggregate u).header = b.header := by
  unfold Book.dropAggregate
  simp only
  split <;> simp

theorem uncross_header (b : Book α) : b.uncross.2.header = b.header := release_header ..

theorem applied_header (now : α) : (b.applied u now).2.header = b.header := by
  rw [Book.applied, uncross_header]
  split
  · exact dropAggregate_header
  · rw [posted, stamp_header, resize_header]

theorem matched_header (b : Book α) (o : Order α) : (b.matched o).header = b.header := by
  rw [matched, release_header, setLadder_header]
  rfl

theorem rest_header (b : Book α) (id : OrderId) (o : Order α) : (b.rest id o).header = b.header :=
  setLadder_header ..

theorem accept_header (s : Submission α) (now : α) : (b.accept s now).2.header = b.header := by
  rw [accept_eq]
  simp only
  split
  · exact matched_header ..
  · exact (rest_header ..).trans (matched_header ..)

theorem remove_header (id : OrderId) : (b.remove id).2.header = b.header := by
  unfold Book.remove
  split
  · rfl
  · exact setLadder_header ..

end LimitBook.Book

import LimitBook.Feed.Frame
import LimitBook.Feed.Request
import LimitBook.Proofs.Json.Printer

namespace LimitBook.Feed

open Text Json Json.Grammar

namespace Request

variable (r : Request) (channel instId : Text)

theorem distinct_toJson : Distinct (r.toJson channel instId) := by
  have hinner : [ofString "channel", ofString "instId"].Nodup := by decide
  have houter : [ofString "op", ofString "args"].Nodup := by decide
  have hnames : Distinct (.obj [("channel", .str channel), ("instId", .str instId)]) :=
    .obj hinner (List.forall_mem_cons.mpr ⟨.str _, List.forall_mem_singleton.mpr (.str _)⟩)
  exact .obj houter (List.forall_mem_cons.mpr ⟨.str _, List.forall_mem_singleton.mpr
    (.arr (List.forall_mem_singleton.mpr hnames))⟩)

theorem read?_text : Json.read? (r.text channel instId) = some (r.toJson channel instId) :=
  read?_print (distinct_toJson r channel instId)

theorem name_injective {r r' : Request} (h : ofString r.name = ofString r'.name) : r = r' := by
  have hne : ofString subscribe.name ≠ ofString unsubscribe.name := by decide
  cases r <;> cases r'
  · rfl
  · exact absurd h hne
  · exact absurd h.symm hne
  · rfl

theorem toJson_injective {r r' : Request} {channel channel' instId instId' : Text}
    (h : r.toJson channel instId = r'.toJson channel' instId') :
    r = r' ∧ channel = channel' ∧ instId = instId' := by
  simp only [toJson, Json.obj.injEq, Json.arr.injEq, Json.str.injEq, List.cons.injEq,
    Prod.mk.injEq, true_and, and_true] at h
  exact ⟨name_injective h.1, h.2⟩

/-- A frame of the book has an argument beside its data, and every other frame says what event it
tells of. -/
theorem ofJson?_toJson : Frame.ofJson? (r.toJson channel instId) = none := by
  have harg : (r.toJson channel instId).field? "arg" = none := rfl
  have hevent : (r.toJson channel instId).field? "event" = none := rfl
  rw [Frame.ofJson?, Frame.book?, harg, Frame.event?, hevent]
  rfl

theorem text_ne_pong : r.text channel instId ≠ ofString "pong" := fun h => by
  have hhead : (r.text channel instId).head? = some (unit '\x7b') := rfl
  rw [h] at hhead
  exact absurd hhead (by decide)

/-- For all names, the text of a request is read as an object with the request's kind and, in a list
of its own, the two names; the texts of different requests are different; and none is a frame. -/
theorem text_exact :
    Json.read? (r.text channel instId) =
        some (.obj [("op", .str r.name),
          ("args", .arr [.obj [("channel", .str channel), ("instId", .str instId)]])]) ∧
      (∀ r' channel' instId', r.text channel instId = r'.text channel' instId' ↔
        r = r' ∧ channel = channel' ∧ instId = instId') ∧
      Frame.ofText? (r.text channel instId) = none := by
  refine ⟨read?_text r channel instId, fun r' channel' instId' => ⟨fun h => ?_, ?_⟩, ?_⟩
  · have hread := read?_text r channel instId
    rw [h, read?_text] at hread
    exact toJson_injective (Option.some.inj hread).symm
  · rintro ⟨rfl, rfl, rfl⟩
    rfl
  · rw [Frame.ofText?, if_neg (text_ne_pong r channel instId), read?_text, Option.bind_some,
      ofJson?_toJson]

example : subscribe.text [0x22, 0x5C, 0x07] [0xD800] =
    "\x7b\"op\":\"subscribe\",\"args\":[\x7b\"channel\":\"\\\"\\\\\\u0007\",\"instId\":\"\\ud800\"\x7d]\x7d" := by
  decide +kernel

end Request

end LimitBook.Feed

import Chessrepeat.Ws.Lemmas.Dispatch
import Chessrepeat.Ws.Lemmas.Rooms

/-!
# Whom an event reaches
-/

namespace Chessrepeat.Ws

open Lib Domain Store

variable {Raw : Type} {json : Codec Raw} {faults : Faults} {db : Db} {w : Server Raw}

/-- The chapter a message is about, if it is one of the six kinds that change a chapter. -/
def target (json : Codec Raw) (raw : Raw) : Option Text :=
  match json.envelope raw with
  | some .moveCreated => (json.moveEvent raw).map MoveEvent.chapterID
  | some .setComment => (json.commentEvent raw).map CommentEvent.chapterID
  | some .trainingUpdated => (json.trainingUpdatedEvent raw).map TrainingUpdatedEvent.chapterID
  | some .nodeDeleted => (json.nodeDeleteEvent raw).map NodeDeleteEvent.chapterID
  | some .chapterRenamed => (json.chapterRenameEvent raw).map ChapterRenameEvent.chapterID
  | some .chapterDeleted => (json.chapterDeleteEvent raw).map ChapterDeleteEvent.chapterID
  | _ => none

theorem chapterID_truncateComment (event : CommentEvent) : (truncateComment event).chapterID = event.chapterID := by
  unfold truncateComment; split <;> rfl

/-- A branch that broadcasts has found the chapter of its event. -/
theorem mutate_broadcast {α : Type} {sub : Session} {event : Option α} {chapterID : α → Text}
    {requireEdit : Bool} {write : α → Except StoreError Db} {reloads : List StoreError} {out : α → Raw} {msg : Raw}
    (h : (mutate json faults db sub event chapterID requireEdit write reloads out).2 = .broadcast msg) :
    ∃ c, event.map chapterID = some c.uuid ∧ db.chapters.find? c.uuid = some c := by
  rcases mutate_cases event chapterID requireEdit write reloads out with ⟨-, hno⟩ | ⟨e, db', he, ha, -, -, -⟩
  · exact absurd h (hno msg)
  · obtain ⟨c, hc, -⟩ := authorizeChapter_spec ha
    have hid : c.uuid = chapterID e := (Table.find?_eq_some.mp hc).2
    exact ⟨c, by rw [he, hid]; rfl, by rw [hid]; exact hc⟩

/-- What is broadcast is about a chapter that was there. -/
theorem dispatch_broadcast {sub : Session} {raw msg : Raw}
    (h : (dispatch json faults db sub raw).2 = .broadcast msg) :
    ∃ c, target json raw = some c.uuid ∧ db.chapters.find? c.uuid = some c := by
  unfold dispatch at h
  unfold target
  split at h
  case h_3 henv => simp only [henv]; exact mutate_broadcast h
  case h_4 henv =>
    obtain ⟨c, he, hc⟩ := mutate_broadcast h
    refine ⟨c, ?_, hc⟩
    simp only [henv]
    rw [← he, Option.map_map]
    exact congrArg (fun g => Option.map g _) (funext fun e => (chapterID_truncateComment e).symm)
  case h_5 henv =>
    obtain ⟨c, he, hc⟩ := mutate_broadcast h
    refine ⟨c, ?_, hc⟩
    simp only [henv]
    rw [← he, Option.map_map]
    rfl
  case h_6 henv => simp only [henv]; exact mutate_broadcast h
  case h_7 henv => simp only [henv]; exact mutate_broadcast h
  case h_8 henv => simp only [henv]; exact mutate_broadcast h
  all_goals cases h

/-! ## Viewers -/

/-- The subscriber is in a room of the owner. -/
def Server.Views (w : Server Raw) (i : Nat) (ownerID : Text) : Prop :=
  ∃ R ∈ w.roomHeap, R.id = ownerID ∧ i ∈ R.subscribers

/-- The event of a chapter goes to the viewers of its owner's repertoire other than the sender, and to no one
without a permission on it. -/
def RoutedRight (w : Server Raw) (db : Db) (i : Nat) (sub : Subscriber Raw) (ownerID : Text) : Prop :=
  (∀ j, j ∈ w.recipients sub.room (some i) ↔ w.Views j ownerID ∧ j ≠ i) ∧
  ∀ j ∈ w.recipients sub.room (some i), ∀ s, w.subs[j]? = some s →
    (db.effectivePermissionOnRepertoire ownerID s.session.userID).isSome

/-- The sender has joined a room of the chapter's owner, and all that view the repertoire are in it; or no one
else is in either. Those in the sender's room have kept their permission. -/
def InOwnersRoom (w : Server Raw) (db : Db) (i : Nat) (sub : Subscriber Raw) (ownerID : Text) : Prop :=
  (((∃ R, w.roomHeap[sub.room]? = some R ∧ R.id = ownerID) ∧
      ∀ j, w.Views j ownerID → j ≠ i → j ∈ w.members sub.room) ∨
    ((∀ j ∈ w.members sub.room, j = i) ∧ ∀ j, w.Views j ownerID → j = i)) ∧
  ∀ j ∈ w.members sub.room, j ≠ i → ∀ s, w.subs[j]? = some s →
    (db.effectivePermissionOnRepertoire ownerID s.session.userID).isSome

theorem Server.mem_recipients_self {r i j : Nat} :
    j ∈ w.recipients r (some i) ↔ j ∈ w.members r ∧ j ≠ i := by
  simp only [Server.recipients, Finset.mem_filter, ne_eq, Option.some.injEq]

/-- Who is in the sender's room and views the owner's repertoire is in one room, of that owner. -/
theorem Server.Wf.id_of_views (hw : w.Wf) {r j : Nat} {ownerID : Text} (hj : j ∈ w.members r)
    (hv : w.Views j ownerID) : ∃ R, w.roomHeap[r]? = some R ∧ R.id = ownerID := by
  obtain ⟨R, hR, hid, hmem⟩ := hv
  obtain ⟨r', hr'⟩ := List.getElem?_of_mem hR
  obtain ⟨s, hs, hsr⟩ := hw.member r j hj
  obtain ⟨s', hs', hsr'⟩ := hw.member r' j (Server.mem_members.mpr ⟨R, hr', hmem⟩)
  rw [hs] at hs'
  cases hs'
  have hrr : r = r' := hsr.symm.trans hsr'
  exact ⟨R, hrr ▸ hr', hid⟩

theorem routedRight_iff (hw : w.Wf) (db : Db) (i : Nat) (sub : Subscriber Raw) (ownerID : Text) :
    RoutedRight w db i sub ownerID ↔ InOwnersRoom w db i sub ownerID := by
  simp only [RoutedRight, InOwnersRoom, Server.mem_recipients_self, and_imp]
  refine and_congr_left fun _ => ?_
  constructor
  · intro h
    by_cases hid : ∃ R, w.roomHeap[sub.room]? = some R ∧ R.id = ownerID
    · exact Or.inl ⟨hid, fun j hv hj => ((h j).mpr ⟨hv, hj⟩).1⟩
    · refine Or.inr ⟨fun j hj => ?_, fun j hv => ?_⟩
      · by_contra hne
        exact hid (hw.id_of_views hj ((h j).mp ⟨hj, hne⟩).1)
      · by_contra hne
        exact hid (hw.id_of_views ((h j).mpr ⟨hv, hne⟩).1 hv)
  · rintro (⟨⟨R, hR, hid⟩, hall⟩ | ⟨hroom, hviews⟩) j
    · constructor
      · rintro ⟨hj, hne⟩
        rw [Server.members_eq hR] at hj
        exact ⟨⟨R, List.mem_of_getElem? hR, hid, hj⟩, hne⟩
      · exact fun ⟨hv, hne⟩ => ⟨hall j hv hne, hne⟩
    · exact ⟨fun ⟨hj, hne⟩ => absurd (hroom j hj) hne, fun ⟨hv, hne⟩ => absurd (hviews j hv) hne⟩

end Chessrepeat.Ws

import Chessrepeat.Room.Cards
import Chessrepeat.Store.Lemmas.Cards

/-!
# What is left of a card

Every field but the learning steps.
-/

namespace Chessrepeat.Room

open Lib Domain Store

variable {dates : DateText} {db : Db} {c p u : Text} {card : FsrsCard}

/-- What the server makes of a card. -/
def cardData (dates : DateText) (card : FsrsCard) : CardData :=
  ⟨dates.toISOString card.due, card.stability, card.difficulty, card.elapsedDays, card.scheduledDays, card.reps,
    card.lapses, card.state, (card.lastReview.map dates.toISOString).getD []⟩

theorem unmarshalCard_json : unmarshalCard (card.json dates) = some (cardData dates card) := by
  have hlast : JsonValue.text (card.lastReview.map fun t => .string (dates.toISOString t)) =
      some ((card.lastReview.map dates.toISOString).getD []) := by
    cases card.lastReview <;> rfl
  simp only [unmarshalCard, FsrsCard.json, hlast]
  rfl

theorem sendAndLoad_eq : sendAndLoad dates db c p u card =
    if db.moves.has (c, p) then some (marshalCard (cardData dates card)) else none := by
  rw [sendAndLoad, unmarshalCard_json]
  cases hrow : db.moves.has (c, p) with
  | true =>
      simp only [Db.updateTrainingState, hrow, if_true, lookup_cardsAt, Table.find?_upsert, CardRow.key, Option.map_some]
      rfl
  | false =>
      simp only [Db.updateTrainingState, hrow, Bool.false_eq_true, if_false]

/-- The learning steps are missing. -/
theorem learningSteps_sendAndLoad {o : CardJson} (h : sendAndLoad dates db c p u card = some o) : o .learningSteps = none := by
  rw [sendAndLoad_eq] at h
  split at h
  · cases h
    rfl
  · cases h

end Chessrepeat.Room

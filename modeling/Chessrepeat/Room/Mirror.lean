import Chessrepeat.Client.Lemmas.PathSets
import Chessrepeat.Room.Backup
import Chessrepeat.Store.Lemmas.Contents

/-!
# One event on both sides

A store method of the server and a handler of the client read the same event, the one against the rows of a chapter and the
other against its tree.
-/

namespace Chessrepeat.Room

open Lib Client Store

variable {Card : Type}

/-- The store method for the event. That PostgreSQL refuses a text with a NUL is left out: such an event stays with its
sender. -/
def write (cards : CardCodec Card) (db : Db) : Outgoing Card → Except StoreError Db
  | .moveCreated c p d => db.addMoveToChapter ⟨Utf16.decode c, toMove cards d, Utf16.decode p⟩
  | .nodeDeleted c p => db.deleteNodeFromChapter ⟨Utf16.decode c, Utf16.decode p⟩
  | .setComment c p comment => db.setComment (Utf16.decode c) (Utf16.decode p) (Utf16.decode comment)
  | .trainingUpdated c p username card =>
      db.updateTrainingState ⟨Utf16.decode c, Utf16.decode p, Utf16.decode username, cards.toServer card⟩

/-- The usernames in the training map are text. -/
def Usernames (d : TrainingData Card) : Prop := ∀ e ∈ d.training.getD [], Utf16.WellFormed e.1

instance (d : TrainingData Card) : Decidable (Usernames d) := by delta Usernames; infer_instance

/-- The ids below the root are two characters, and siblings have different ones. -/
structure WellNamed (root : TrainableNode Card) : Prop where
  twoUnits : TwoUnits root
  plain : PlainIds root
  distinct : DistinctIds root
  usernames : ∀ p d, dataAt root p = some d → Usernames d

/-- The rows of the chapter are what `flattenTree` makes of the tree, with the cards of its training maps. -/
def Flattens (cards : CardCodec Card) (c : Domain.Text) (root : TrainableNode Card) (db : Db) : Prop :=
  ∃ out, flattenTree (toNode cards (root.map Object.data)) = some out ∧ Records db c out

end Chessrepeat.Room

import Chessrepeat.Client.Lemmas.Edits
import Chessrepeat.Client.Playground
import Chessrepeat.Room.System

/-!
# One client, its socket and its requests

`fetchRepertoire` and the socket are two ways from the server to the client, and nothing orders what comes over the one
and over the other. `useWebsocket` opens a new socket when the old one has closed.
-/

namespace Chessrepeat.Room

open Lib Client Ws

variable {Raw Card : Type}

/-! ## Local calls -/

/-- The calls of the store that change a chapter and tell the server. -/
inductive LocalCall (Card : Type) where
  | makeMove (san : JsString)
  | deleteLine (path : JsString)
  | setCommentAt (comment path : JsString)
  | learn
  | train (correct : Bool)
  | renameChapter (chapterId newName : JsString)
  | deleteChapterAt (chapterId : JsString)

namespace LocalCall

variable (chess : Chessops) (env : Env Card) (s : TrainerState Card)

/-- The call on a store whose socket is not open. -/
def call : LocalCall Card → TrainerState Card
  | .makeMove san => s.makeMove chess env san
  | .deleteLine path => s.deleteLine env path
  | .setCommentAt comment path => s.setCommentAt env comment path
  | .learn => s.learn env
  | .train correct => s.train env correct
  | .renameChapter chapterId newName =>
      match s.chapter chapterId with
      | none => s
      | some _ => s.onChapter chapterId (Chapter.setName newName)
  | .deleteChapterAt chapterId =>
      match s.repertoire.findIdx? fun c => c.uuid = chapterId with
      | none => s
      | some idx => s.removeChapter chapterId idx

/-- The call returns early, or goes to a move that is there. -/
def idle : LocalCall Card → Bool
  | .makeMove san => (nextMove chess s san).isNone
  | .deleteLine _ | .setCommentAt .. => s.selectedChapter.isNone
  | .learn => (s.trainingTarget env).isNone
  | .train _ => (s.trainingTarget env).all fun e => (ownCard env e.2.1.data).isNone
  | .renameChapter chapterId _ => (s.chapter chapterId).isNone
  | .deleteChapterAt chapterId => (s.repertoire.findIdx? fun c => c.uuid = chapterId).isNone

end LocalCall

/-! ## The client and the server -/

/-- A `fetchRepertoire` that has not returned. `savedPath` is that of the `resyncAndRestore` it belongs to. The response
is what the server has read, with the number of commits before. -/
structure Request (Card : Type) where
  savedPath : Option JsString
  response : Option (Nat × Option (List (RawChapter Card)))

/-- `stream` has the broadcasts on their way to the client. The rest is not in the code: the databases before each
commit, the commits that the client has got the event of, and the commit that its chapters are from. -/
structure Link (Card : Type) where
  db : Store.Db
  client : TrainerState Card
  socketOpen : Bool
  stream : List (Nat × Frame (Wire Card))
  requests : List (Request Card)
  past : List Store.Db
  delivered : List Nat
  asOf : Option Nat

inductive LinkAction (Raw Card : Type) where
  | onopen (users : Multiset Domain.PeerInfo)
  | onclose
  /-- The server handles a message of someone else. -/
  | commit (sub : Session) (raw : Raw)
  | onmessage (k : Nat) (env : Env Card)
  | navigate (env : Env Card) (a : Client.Action Card)
  | call (env : Env Card) (c : LocalCall Card)
  | fetchRepertoire
  /-- The first of the `resyncAndRestore` sends its request. -/
  | resync
  | read (k : Nat) (order : Store.PathOrder)
  | install (k : Nat) (env : Env Card)

namespace Link

variable (chess : Chessops) (cards : CardCodec Card) (json : Codec Raw) (parse : Raw → Wire Card) (owner : Domain.Text)
  (s : Link Card)

/-- The number of commits. -/
def commits : Nat := s.past.length

/-- The database after that many commits. -/
def dbAt (n : Nat) : Option Store.Db := (s.past ++ [s.db])[n]?

/-- Nothing is fetched, and nothing is sent again. The server answers with the members of the room. -/
def onopen (users : Multiset Domain.PeerInfo) : Link Card := { s with socketOpen := true, stream := [(0, .crowd users)] }

def onclose : Link Card := { s with socketOpen := false, stream := [] }

def commit (sub : Session) (raw : Raw) : Link Card :=
  let out := dispatch json .none s.db sub raw
  match out.2 with
  | .broadcast msg =>
      { s with
        db := out.1
        past := s.past ++ [s.db]
        stream := if s.socketOpen then s.stream ++ [(s.commits + 1, .raw (parse msg))] else s.stream }
  | _ => { s with db := out.1 }

def onmessage (k : Nat) (env : Env Card) : Link Card :=
  match s.stream[k]? with
  | none => s
  | some (n, .raw (.msg m)) =>
      { s with
        client := receive env s.client (.raw (.msg m))
        stream := s.stream.eraseIdx k
        delivered := s.delivered ++ [n]
        asOf := none }
  | some (_, f) => { s with client := receive env s.client f, stream := s.stream.eraseIdx k }

/-- Calls on an open socket are left to `System`, and those of someone who is not signed in to `Playground`. -/
def call (env : Env Card) (c : LocalCall Card) : Link Card :=
  if s.socketOpen || !env.isAuthenticated then s
  else
    let env := { env with socketOpen := false }
    { s with client := c.call chess env s.client, asOf := if c.idle chess env s.client then s.asOf else none }

def resync : Link Card :=
  match s.client.resyncs with
  | [] => s
  | path :: paths =>
      { s with client := { s.client with resyncs := paths }, requests := s.requests ++ [⟨some path, none⟩] }

def read (k : Nat) (order : Store.PathOrder) : Link Card :=
  match s.requests[k]? with
  | some ⟨savedPath, none⟩ =>
      { s with requests := s.requests.set k ⟨savedPath, some (s.commits, fetch cards s.db order owner)⟩ }
  | _ => s

def install (k : Nat) (env : Env Card) : Link Card :=
  match s.requests[k]? with
  | some ⟨savedPath, some (n, fetched)⟩ =>
      { s with
        requests := s.requests.eraseIdx k
        client := match savedPath with
          | none => s.client.fetchRepertoire env fetched
          | some path => s.client.restore env path fetched
        asOf := if fetched.isSome then some n else s.asOf }
  | _ => s

def step : LinkAction Raw Card → Link Card
  | .onopen users => s.onopen users
  | .onclose => s.onclose
  | .commit sub raw => s.commit json parse sub raw
  | .onmessage k env => s.onmessage k env
  | .navigate env a => if isNavigation a then { s with client := Client.step chess s.client env a } else s
  | .call env c => s.call chess env c
  | .fetchRepertoire => { s with requests := s.requests ++ [⟨none, none⟩] }
  | .resync => s.resync
  | .read k order => s.read cards owner k order
  | .install k env => s.install k env

end Link

/-! ## Agreement -/

/-- The nodes of a tree with their paths. -/
def entries (root : TrainableNode Card) : List (JsString × TrainingData Card) := (paths root).zip (forEachNode root)

/-- The moves of a chapter with their cards. -/
def rowEntries (cards : CardCodec Card) (db : Store.Db) (chapterID : Domain.Text) : List (JsString × TrainingData Card) :=
  (Store.mergeCardsIntoMoves (db.loadMoves chapterID) (db.loadCards chapterID)).rows.map fun e =>
    (Utf16.encode e.1, ofMove cards e.2)

/-- The repertoire of a client is what the rows of the owner say. -/
structure Agrees (cards : CardCodec Card) (db : Store.Db) (owner : Domain.Text) (s : TrainerState Card) : Prop where
  chapters : (s.repertoire.map fun c => (c.uuid, c.name, c.trainAs)).Perm
    ((db.chapters.rows.filter fun r => r.ownerId = owner).map fun r =>
      (Utf16.encode r.uuid, Utf16.encode r.name, Utf16.encode r.trainAs))
  moves : ∀ c ∈ s.repertoire, ∀ id, c.uuid = Utf16.encode id → (entries c.root).Perm (rowEntries cards db id)

end Chessrepeat.Room

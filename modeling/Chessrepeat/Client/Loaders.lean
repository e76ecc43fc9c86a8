import Mathlib.Data.List.Sort
import Chessrepeat.Client.Idb
import Chessrepeat.Client.State

/-!
# The loaders of the repertoire

`fetchRepertoire`, `viewUserRepertoire`, `applyLoginResponse` and `hydrateRepertoireFromIDB`. What is left of a call
at an `await` is a `Call`; any of the calls that wait may go on next. What a chapter is does not matter here.
-/

namespace Chessrepeat.Client

open Lib

variable {Raw C : Type}

/-- The functions the loaders use. What `parseChapters` counts depends on the user. -/
structure Loader (Raw C : Type) where
  parseChapters : Option JsString → Raw → List C
  sortChapters : List C → List C
  uuid : C → JsString
  exampleChapter : Option C

/-- White chapters come first; among those of a colour `localeCompare` decides. -/
def sortChapters {Card : Type} (localeCompare : JsString → JsString → Int) (chapters : List (Chapter Card)) :
    List (Chapter Card) :=
  let compare (ch1 ch2 : Chapter Card) : Int :=
    if ch1.trainAs ≠ ch2.trainAs then if ch1.trainAs = white then -1 else 1 else localeCompare ch1.uuid ch2.uuid
  chapters.insertionSort fun ch1 ch2 => compare ch1 ch2 ≤ 0

/-- The functions as the source has them; all they read outside the store but for the user is in `env`. -/
def trainerLoader {Card : Type} (env : Env Card) (localeCompare : JsString → JsString → Int)
    (exampleChapter : Option (Chapter Card)) : Loader (List (RawChapter Card)) (Chapter Card) where
  parseChapters user raw := (Client.parseChapters { env with user } 0 raw).1
  sortChapters := sortChapters localeCompare
  uuid := Chapter.uuid
  exampleChapter := exampleChapter

/-- The body of a response that is ok. -/
structure Response (Raw : Type) where
  username : Option JsString
  chapters : Raw

/-- A value that `if` takes for true. -/
def truthy (s : Option JsString) : Option JsString := s.filter fun s => s ≠ []

inductive Write (C : Type) where
  | chapter (c : C)
  | ids (ids : List JsString)

inductive Call (C : Type) where
  /-- The author for whom `fetchRepertoire` asks, if there was one. -/
  | fetch (author : Option JsString)
  | view (username : JsString)
  | login
  /-- `persistAllChapters` with the writes that are left; `viewUserRepertoire` sets the author after it. -/
  | persist (writes : List (Write C)) (author : Option JsString)
  | hydrate
  /-- The ids that are left to read and the chapters that were read. -/
  | hydrating (ids : List JsString) (chapters : List C)
  /-- `addNewChapterLocally` before its first write, before it reads the ids, and before it writes them. -/
  | add (c : C)
  | added (c : C)
  | listed (ids : List JsString)

/-- `returned` is a history variable: which chapters were returned for which author, by a request or, for nobody, by
IndexedDB. -/
structure Loading (C : Type) where
  user : Option JsString
  repertoireAuthor : Option JsString
  repertoire : List C
  idb : Idb C
  calls : List (Call C)
  returned : List (Option JsString × List C)

/-- Before anything is loaded there are no chapters of nobody. -/
def Loading.initial (idb : Idb C) : Loading C := ⟨none, none, [], idb, [], [(none, [])]⟩

inductive LoadAction (Raw : Type) where
  | fetchRepertoire
  | viewUserRepertoire (username : JsString)
  | login
  | hydrateRepertoireFromIDB
  /-- The call at that place goes on; where it waits for a response, `none` is a failed request. -/
  | resume (k : Nat) (response : Option (Response Raw))

namespace Loading

variable (loader : Loader Raw C) (s : Loading C)

def call (c : Call C) : Loading C := { s with calls := s.calls ++ [c] }

def Write.run (db : Idb C) : Write C → Idb C
  | .chapter c => db.writeChapter (loader.uuid c) c
  | .ids ids => db.writeChapterIds ids

/-- `setRepertoire`, followed by what its caller does after it. -/
def setRepertoire (chapters : List C) (author : Option JsString) : Loading C :=
  let writes := if s.user.isSome then [] else
    chapters.map Write.chapter ++ [.ids (chapters.map loader.uuid)]
  call { s with repertoire := chapters } (.persist writes author)

def setRepertoireAuthor (author : Option JsString) : Loading C := { s with repertoireAuthor := author }

def setUser (username : Option JsString) : Loading C := { s with user := username }

def record (author : Option JsString) (chapters : List C) : Loading C :=
  { s with returned := s.returned ++ [(author, chapters)] }

/-- `fetchRepertoire` from its response on. -/
def fetched (author : Option JsString) (r : Response Raw) : Loading C :=
  let s := match author, truthy r.username with
    | none, some username => (s.setUser (some username)).setRepertoireAuthor (some username)
    | _, _ => s
  let chapters := loader.sortChapters (loader.parseChapters s.user r.chapters)
  (s.record (author.or r.username) chapters).setRepertoire loader chapters none

/-- `viewUserRepertoire` from its response on. -/
def viewed (username : JsString) (r : Response Raw) : Loading C :=
  let chapters := loader.parseChapters s.user r.chapters
  (s.record (some username) chapters).setRepertoire loader chapters (some username)

/-- A response without a user is an exception. -/
def applyLoginResponse (r : Response Raw) : Loading C :=
  match r.username with
  | none => s
  | some username =>
      let s := s.setUser (some username)
      let chapters := loader.parseChapters s.user r.chapters
      let s := (s.record (some username) chapters).setRepertoire loader chapters none
      if username = [] then s else s.setRepertoireAuthor (some username)

/-- The example is trained with white, so it goes in front. -/
def addExample (c : C) : Loading C :=
  let s := { s with repertoire := c :: s.repertoire }
  if s.user.isSome then s else s.call (.add c)

/-- `hydrateRepertoireFromIDB` once the ids were read. -/
def hydrate : Loading C :=
  match s.idb.readChapterIds with
  | [] => match loader.exampleChapter with
    | none => s
    | some c => (s.record none [c]).addExample c
  | id :: ids => s.call (.hydrating (id :: ids) [])

/-- One more chapter is read; after the last, the store gets them. -/
def readOne (ids : List JsString) (chapters : List C) : Loading C :=
  match ids with
  | [] => s
  | id :: ids =>
      let chapters := chapters ++ (s.idb.readChapter id).toList
      match ids with
      | [] =>
          let sorted := loader.sortChapters chapters
          { s.record none sorted with repertoire := sorted }
      | id :: ids => s.call (.hydrating (id :: ids) chapters)

/-- A call goes on to its next `await` or its end. -/
def go (c : Call C) (response : Option (Response Raw)) : Loading C :=
  match c, response with
  | .fetch author, some r => s.fetched loader author r
  | .view username, some r => s.viewed loader username r
  | .login, some r => s.applyLoginResponse loader r
  | .fetch _, none | .view _, none | .login, none => s
  | .persist (w :: ws) author, _ => call { s with idb := Write.run loader s.idb w } (.persist ws author)
  | .persist [] none, _ => s
  | .persist [] (some author), _ => s.setRepertoireAuthor (some author)
  | .hydrate, _ => s.hydrate loader
  | .hydrating ids chapters, _ => s.readOne loader ids chapters
  | .add c, _ => call { s with idb := s.idb.writeChapter (loader.uuid c) c } (.added c)
  | .added c, _ =>
      if loader.uuid c ∈ s.idb.readChapterIds then s else s.call (.listed (s.idb.readChapterIds ++ [loader.uuid c]))
  | .listed ids, _ => { s with idb := s.idb.writeChapterIds ids }

def step : LoadAction Raw → Loading C
  | .fetchRepertoire => s.call (.fetch (truthy s.repertoireAuthor))
  | .viewUserRepertoire username => s.call (.view username)
  | .login => s.call .login
  | .hydrateRepertoireFromIDB => match s.repertoire with
    | [] => s.call .hydrate
    | _ :: _ => s
  | .resume k response => match s.calls[k]? with
    | none => s
    | some c => go loader { s with calls := s.calls.eraseIdx k } c response

end Loading

end Chessrepeat.Client

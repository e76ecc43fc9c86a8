import Chessrepeat.Api.Lemmas.Comments
import Chessrepeat.Api.Lemmas.Login

/-!
# What holds of the requests that write
-/

namespace Chessrepeat.Api

open Lib Domain Store Ws

variable {Raw : Type}

/-! ## Authorization -/

/-- Whatever a user sends, over the socket from any room or by POST, changes only what he may change; who may
only train on a chapter changes nothing of it but his own cards. -/
theorem writes_authorized (json : Codec Raw) (faults : Faults) (db : Db) :
    (∀ (w : Server Raw) (i : Nat) (sub : Subscriber Raw) (raw : Raw), w.subs[i]? = some sub →
      WritesAuthorized sub.session.userID sub.session.username db (handleMessage json faults db w i raw).1 ∧
      ∀ id, db.effectivePermissionOnChapter id sub.session.userID = some .train →
        OnlyOwnCards sub.session.username id db (handleMessage json faults db w i raw).1) ∧
    (∀ (req : ChapterRequest) (username : Text),
      WritesAuthorized req.userID username db (servePost faults db req) ∧
      ∀ id, db.effectivePermissionOnChapter id req.userID = some .train →
        OnlyOwnCards username id db (servePost faults db req)) := by
  constructor
  · intro w i sub raw hi
    have h : WritesAuthorized sub.session.userID sub.session.username db (handleMessage json faults db w i raw).1 := by
      simp only [handleMessage, hi]
      exact WritesAuthorized.dispatch json faults db sub.session raw
    exact ⟨h, fun id ht => h.train_only ht⟩
  · intro req username
    have h := WritesAuthorized.servePost faults db req username
    exact ⟨h, fun id ht => h.train_only ht⟩

/-! ## Panics -/

/-- No request panics and every chapter can be rebuilt, throughout a run, exactly when every accepted move and
every posted chapter of the run is harmless. -/
theorem always_noPanic (json : Codec Raw) (order : PathOrder) (users : Users)
    (collaborators : Table CollaboratorRow.key) (as : List (Request Raw)) :
    Always (Backend.step json) (NoPanic order) (Backend.fresh users collaborators) as ↔
      Meets (Backend.step json) (Harmless json) (Backend.fresh users collaborators) as := by
  have hh : Housed (Backend.fresh users collaborators).db := fun m hm => by cases hm
  refine always_iff_meets (J := fun w : Backend => Housed w.db) (fun w a h => Backend.step_housed h a)
    (fun w a h hn => Backend.step_noPanic_iff h hn a) hh ?_ as
  exact (noPanic_iff hh false).mpr ⟨rfl, fun m hm => by cases hm⟩

/-- Ann alone. -/
def annUsers : Users := ⟨⟨[⟨['u', '1'], some ['a', 'n', 'n'], [], 1⟩], by decide⟩, by decide⟩

def annSession : Session := ⟨['u', '1'], ['a', 'n', 'n'], [], .owner⟩

def chapterBody (children : List ChapterTreeNode) : ChapterEvent :=
  ⟨['c'], [], ['x'], ['w'], .mk TrainingData.zero children⟩

/-- A chapter whose root has a null among its children. -/
def postNull : Request Message := .postChapter Faults.none ⟨['u', '1'], [], some (chapterBody [.null])⟩

def postEmpty : Request Message := .postChapter Faults.none ⟨['u', '1'], [], some (chapterBody [])⟩

/-- A move under the root whose id is one letter. -/
def shortMove : Request Message :=
  .message Faults.none annSession (.moveCreated ⟨['c'], { TrainingData.zero with id := ['e'] }, []⟩)

theorem postNull_panics : ¬ Always (Backend.step Message.codec) (NoPanic PathOrder.insertion)
    (Backend.fresh annUsers Table.empty) [postNull] ∧
  ¬ Always (Backend.step Message.codec) (NoPanic PathOrder.insertion)
    (Backend.fresh annUsers Table.empty) [postEmpty, shortMove] := by
  constructor
  · intro h
    exact absurd h.last.1 (by decide)
  · intro h
    exact absurd (h.last.2.2 ['c']) (by decide)

/-! ## Comments -/

/-- Every stored comment is within the cap, throughout a run, exactly when the moves that are added and the chapters
that are posted come with comments within the cap: nothing but `set_comment` cuts them. -/
theorem always_capped (json : Codec Raw) (users : Users) (collaborators : Table CollaboratorRow.key)
    (as : List (Request Raw)) :
    Always (Backend.step json) (fun w => Capped w.db) (Backend.fresh users collaborators) as ↔
      Meets (Backend.step json) (ShortComments json) (Backend.fresh users collaborators) as := by
  have hh : Housed (Backend.fresh users collaborators).db := fun m hm => by cases hm
  have hc : Capped (Backend.fresh users collaborators).db := fun m hm => by cases hm
  exact always_iff_meets (J := fun w : Backend => Housed w.db) (fun w a h => Backend.step_housed h a)
    (fun w a h hn => Backend.step_capped_iff h hn a) hh hc as

/-- One code point more than the cap. -/
def longComment : Text := List.replicate (maxCommentChars + 1) 'x'

/-- `e4`, with a long comment. -/
def commented : TrainingData := ⟨['/', '?'], [], 1, ['e', '4'], longComment, true, none⟩

def postCommented : Request Message :=
  .postChapter Faults.none ⟨['u', '1'], [], some (chapterBody [.mk commented []])⟩

def addCommented : Request Message := .message Faults.none annSession (.moveCreated ⟨['c'], commented, []⟩)

theorem longComment_stored :
    ¬ Always (Backend.step Message.codec) (fun w => Capped w.db) (Backend.fresh annUsers Table.empty) [postCommented] ∧
    ¬ Always (Backend.step Message.codec) (fun w => Capped w.db) (Backend.fresh annUsers Table.empty)
      [postEmpty, addCommented] := by
  have hlong : ¬ longComment.length ≤ maxCommentChars := by
    rw [longComment, List.length_replicate]
    exact Nat.not_succ_le_self _
  have hrow : ∀ (db : Db) rest, db.moves.rows = rest ++ [moveRow ['c'] (['/', '?'], commented)] → ¬ Capped db :=
    fun db rest hdb hc => hlong (hc _ (by rw [hdb]; exact List.mem_append_right rest List.mem_cons_self))
  constructor
  · exact fun h => hrow _ [moveRow ['c'] ([], TrainingData.zero)] rfl h.last
  · exact fun h => hrow _ [moveRow ['c'] ([], TrainingData.zero)] rfl h.last

/-! ## Usernames -/

/-- While no sign-up writes over a user stored since it looked, a login that has succeeded settles the username and
the picture of its user. -/
theorem assigned_once (parse : Text → Option Url) (order : PathOrder) (db : Db) (ts : List (Turn LoginRequest))
    (hc : Meets (logins parse order).step (Protocol.OnTurn FirstSignUp) ⟨db, []⟩ ts) : AssignedOnce parse order db ts := by
  have hrun : Always (logins parse order).step (fun _ => True) ⟨db, []⟩ ts :=
    always_of_step (fun _ _ _ => trivial) trivial ts
  refine ⟨hrun.mono fun w _ => oneHolder w.shared, ?_⟩
  rintro earlier later rfl uid ⟨p, hp, hok⟩
  obtain ⟨hearlier, hlater⟩ := meets_append.mp hc
  have hstored := (stable_stored parse order).asserts (Protocol.asserts_nil db) hearlier
  obtain ⟨user, huser, rfl⟩ := Login.user?_of_succeeded hok
  exact ⟨user, (stable_stored parse order).always (fun _ _ hs hq hq' => Login.fetchUser_exec hs hq hq')
    (hstored p hp user huser) hstored hlater⟩

/-- The sign-up of one account under the name. -/
def signUp (uid name : Text) : LoginRequest := ⟨['P', 'O', 'S', 'T'], some ⟨['t'], name, []⟩, some ⟨uid, []⟩⟩

def noUsers : Db := Db.empty

/-- Two accounts sign up at once, and the first one comes back with another name in its body. -/
def twoSignUps : List (Turn LoginRequest) :=
  [.call (signUp ['u', '1'] ['A', 'n', 'n']), .call (signUp ['u', '2'] ['b', 'o', 'b']), .exec 0, .exec 1, .exec 1,
    .exec 1, .exec 0, .exec 0, .exec 1, .exec 0, .exec 0, .call (signUp ['u', '1'] ['e', 'v', 'e']), .exec 2, .exec 2,
    .exec 2, .exec 2]

theorem twoSignUps_assigned :
    (run (logins (fun _ => none) PathOrder.insertion).step ⟨noUsers, []⟩ twoSignUps).shared.fetchUser ['u', '1'] =
      some ⟨['u', '1'], ['a', 'n', 'n'], []⟩ ∧
    Meets (logins (fun _ => none) PathOrder.insertion).step (Protocol.OnTurn FirstSignUp) ⟨noUsers, []⟩ twoSignUps ∧
    AssignedOnce (fun _ => none) PathOrder.insertion noUsers twoSignUps := by
  have hc : Meets (logins (fun _ => none) PathOrder.insertion).step (Protocol.OnTurn FirstSignUp) ⟨noUsers, []⟩
      twoSignUps := by
    decide
  exact ⟨by decide, hc, assigned_once _ _ _ _ hc⟩

/-- One account signs up twice at once and both logins find no user. The first one succeeds, -/
def annSignsUp : List (Turn LoginRequest) :=
  [.call (signUp ['u', '1'] ['a', 'n', 'n']), .call (signUp ['u', '1'] ['b', 'o', 'b']), .exec 0, .exec 1, .exec 0,
    .exec 0, .exec 0, .exec 0]

/-- and the second one writes over it. -/
def bobSignsUp : List (Turn LoginRequest) := [.exec 1, .exec 1, .exec 1, .exec 1]

theorem doubleSignUp_renames : ¬ AssignedOnce (fun _ => none) PathOrder.insertion noUsers (annSignsUp ++ bobSignsUp) := by
  intro h
  have hok : ∃ p ∈ (run (logins (fun _ => none) PathOrder.insertion).step ⟨noUsers, []⟩ annSignsUp).procs,
      p.Succeeded ['u', '1'] := ⟨_, List.mem_cons_self, rfl⟩
  obtain ⟨user, huser⟩ := h.2 annSignsUp bobSignsUp rfl ['u', '1'] hok
  have hann : some ⟨['u', '1'], ['a', 'n', 'n'], []⟩ = some user := Eq.trans (by decide) huser.1
  have hbob : some ⟨['u', '1'], ['b', 'o', 'b'], []⟩ = some user := Eq.trans (by decide) huser.last
  exact absurd (hann.trans hbob.symm) (by decide)

end Chessrepeat.Api

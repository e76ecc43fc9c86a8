import Chessrepeat.Lib.Interleave
import Chessrepeat.Lib.Strings
import Chessrepeat.Store.Chapters
import Chessrepeat.Store.Collaborators

/-!
# api/auth.go

`POST /login` one call of the store at a time. `email` and the sessions table are written here and read by nothing
else that is modelled.
-/

namespace Chessrepeat.Api

open Lib Domain Store

/-- `auth.FirebaseClaims`, without the address. -/
structure FirebaseClaims where
  uid : Text
  picture : Text
  deriving DecidableEq, Repr

structure LoginBody where
  idToken : Text
  username : Text
  picture : Text
  deriving DecidableEq, Repr

/-- The body is `none` when it does not decode, the claims are what `verifyIDToken` makes of its token. -/
structure LoginRequest where
  method : Text
  body : Option LoginBody
  claims : Option FirebaseClaims
  deriving DecidableEq, Repr

inductive LoginResponse where
  | error (status : Nat) (message : String)
  | needsUsername
  | loggedIn (user : User) (chapters : List ChapterTreeResponse)
  | panicked

/-! ## Usernames and pictures -/

def usernameChar (c : Char) : Bool := ('a' ≤ c && c ≤ 'z') || ('0' ≤ c && c ≤ '9') || c = '_'

/-- `^[a-z0-9_]{3,20}$`. -/
def isValidUsername (u : Text) : Bool := 3 ≤ u.length && u.length ≤ 20 && u.all usernameChar

def maxPictureURLLen : Nat := 2048

def pictureHosts : List Text :=
  ["firebasestorage.googleapis.com".toList, ".firebasestorage.app".toList, "storage.googleapis.com".toList,
    ".googleusercontent.com".toList]

/-- `url.URL`. -/
structure Url where
  scheme : Text
  host : Text
  hostname : Text
  deriving DecidableEq, Repr

/-- `parse` is `url.Parse`. -/
def isValidPictureURL (parse : Text → Option Url) (p : Text) : Bool :=
  if p = [] then true
  else if byteLen p > maxPictureURLLen then false
  else match parse p with
    | none => false
    | some u =>
        if u.scheme ≠ "https".toList || u.host = [] then false
        else pictureHosts.any fun h => if h.head? = some '.' then h.isSuffixOf (toLower u.hostname) else toLower u.hostname = h

/-! ## Login -/

/-- The call a login makes next, with what it remembers of the earlier ones, or what it has answered. -/
inductive Login where
  | fetchUser (body : LoginBody) (claims : FirebaseClaims)
  | fetchUserByUsername (body : LoginBody) (claims : FirebaseClaims) (candidate : Text)
  | upsertUser (existing : Option User) (user : User)
  | createSession (user : User)
  | fetchChaptersByOwner (user : User)
  | answered (resp : LoginResponse)

def Login.start (req : LoginRequest) : Login :=
  if req.method ≠ "POST".toList then .answered (.error 405 "")
  else match req.body with
    | none => .answered (.error 400 "missing idToken")
    | some body =>
        if body.idToken = [] then .answered (.error 400 "missing idToken")
        else match req.claims with
          | none => .answered (.error 401 "invalid id token")
          | some claims => .fetchUser body claims

/-- The picture of the body, else the one the identity provider supplied. -/
def signUpPicture (body : LoginBody) (claims : FirebaseClaims) : Text :=
  if trimSpace body.picture = [] then claims.picture else trimSpace body.picture

def Login.exec (parse : Text → Option Url) (order : PathOrder) (db : Db) : Login → Login × Db
  | .fetchUser body claims => match db.fetchUser claims.uid with
    | some existing => (.upsertUser (some existing) ⟨claims.uid, existing.username, existing.picture⟩, db)
    | none =>
        (if body.username = [] then .answered .needsUsername
          else if !isValidUsername (toLower (trimSpace body.username)) then .answered (.error 400 "invalid username")
          else .fetchUserByUsername body claims (toLower (trimSpace body.username)), db)
  | .fetchUserByUsername body claims candidate => match db.fetchUserByUsername candidate with
    | some _ => (.answered (.error 409 "username taken"), db)
    | none =>
        (if !isValidPictureURL parse (signUpPicture body claims) then .answered (.error 400 "invalid picture")
          else .upsertUser none ⟨claims.uid, candidate, signUpPicture body claims⟩, db)
  | .upsertUser _ user => match db.upsertUser user with
    | none => (.answered (.error 500 ""), db)
    | some db' => (.createSession user, db')
  | .createSession user => (.fetchChaptersByOwner user, db)
  | .fetchChaptersByOwner user => match db.fetchChaptersByOwner order user.tokenID with
    | none => (.answered .panicked, db)
    | some chapters => (.answered (.loggedIn user chapters), db)
  | .answered resp => (.answered resp, db)

def Login.fail : Login → Login
  | .answered resp => .answered resp
  | _ => .answered (.error 500 "")

/-- Any number of logins on one database. -/
def logins (parse : Text → Option Url) (order : PathOrder) : Protocol Db Login LoginRequest :=
  ⟨Login.start, Login.exec parse order, Login.fail⟩

/-! ## Who holds a username -/

/-- The login of the user has succeeded. -/
def Login.Succeeded (uid : Text) : Login → Prop
  | .answered (.loggedIn user _) => user.tokenID = uid
  | _ => False

/-- No username is held by two users. -/
def OneHolder (db : Db) : Prop :=
  ∀ u ∈ db.users.table.rows, ∀ v ∈ db.users.table.rows, ∀ name, u.username = some name → v.username = some name →
    u.tokenId = v.tokenId

/-- Throughout the run no username is held by two users, and from the first login of a user that succeeds what is
stored for it stays the same. -/
def AssignedOnce (parse : Text → Option Url) (order : PathOrder) (db : Db) (ts : List (Turn LoginRequest)) : Prop :=
  Always (logins parse order).step (fun w => OneHolder w.shared) ⟨db, []⟩ ts ∧
  ∀ earlier later, ts = earlier ++ later → ∀ uid,
    (∃ p ∈ (run (logins parse order).step ⟨db, []⟩ earlier).procs, p.Succeeded uid) →
    ∃ user, Always (logins parse order).step (fun w => w.shared.fetchUser uid = some user)
      (run (logins parse order).step ⟨db, []⟩ earlier) later

/-- A login that found no user does not write over one that has been stored since with another username or picture. -/
def FirstSignUp (db : Db) : Login → Prop
  | .upsertUser none user => ∀ stored ∈ db.fetchUser user.tokenID, stored = user
  | _ => True

instance (db : Db) (p : Login) : Decidable (FirstSignUp db p) :=
  match p with
  | .upsertUser none user => inferInstanceAs (Decidable (∀ stored ∈ db.fetchUser user.tokenID, stored = user))
  | .upsertUser (some _) _ | .fetchUser .. | .fetchUserByUsername .. | .createSession _ | .fetchChaptersByOwner _ |
    .answered _ => inferInstanceAs (Decidable True)

end Chessrepeat.Api

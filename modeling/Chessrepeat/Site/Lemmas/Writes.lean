import Chessrepeat.Ws.Lemmas.Dispatch
import Chessrepeat.Site.Authority

/-!
# What one call of the store does
-/

namespace Chessrepeat.Site

open Lib Domain Store Api Ws

variable {Raw : Type} {json : Codec Raw} {parse : Text → Option Url} {order : PathOrder} {w w' : World} {p : Stage Raw}

/-- The stages that write, with what they leave. -/
inductive Writes (w : World) : Stage Raw → World → Prop
  | upsertUser {minted : Option Text} {existing : Option User} {user : User} {set : Option SessionRow} {db : Db}
      (write : w.db.upsertUser user = some db) : Writes w (.login minted (.upsertUser existing user) set) { w with db := db }
  | createSession {id : Text} {user : User} {set : Option SessionRow} {sess : SessionRow} {sessions : Sessions}
      (write : w.sessions.createSession w.db w.now id user.tokenID = some (sess, sessions)) :
      Writes w (.login (some id) (.createSession user) set) { w with sessions := sessions }
  | deleteSession {cookie : Text} : Writes w (.deleteSession cookie) { w with sessions := w.sessions.deleteSession cookie }
  | createChapter {sess : SessionRow} {owner : User} {event : ChapterEvent} {moves : PathMap} {db : Db}
      (write : w.db.insertChapter event moves = .ok db) :
      Writes w (.createChapter sess owner event (.commit moves)) { w with db := db }
  | addCollaborator {sess : SessionRow} {target : User} {permission : Grant} {db : Db}
      (write : w.db.addCollaborator sess.userId target.tokenID permission = some db) :
      Writes w (.addCollaborator sess target permission) { w with db := db }
  | removeCollaborator {sess : SessionRow} {target : User} :
      Writes w (.removeCollaborator sess target) { w with db := w.db.removeCollaborator sess.userId target.tokenID }
  | writing {sess : SessionRow} {owner : User} {sub : Session} {msgs : List Raw} {stmt : Statement} :
      Writes w (.writing sess owner sub msgs stmt) { w with db := (stmt.exec w.db).2 }
  | elapse {d : Int} : Writes w (.elapse d) { w with now := w.now + d }

/-- A call of a login that is not about the session. -/
theorem execLogin_cases (parse : Text → Option Url) (order : PathOrder) (w : World) (minted : Option Text) (stage : Login)
    (set : Option SessionRow) : (∃ user, stage = .createSession user) ∨ execLogin parse order w minted stage set =
      ((.login minted (stage.exec parse order w.db).1 set : Stage Raw), { w with db := (stage.exec parse order w.db).2 }) := by
  cases stage with
  | createSession user => exact Or.inl ⟨user, rfl⟩
  | fetchUser | fetchUserByUsername | upsertUser | fetchChaptersByOwner | answered => exact Or.inr rfl

/-- A login writes the user's row and nothing else of the database. -/
theorem loginExec_cases (parse : Text → Option Url) (order : PathOrder) (db : Db) (stage : Login) : (stage.exec parse order db).2 = db ∨
    ∃ existing user db', stage = .upsertUser existing user ∧ db.upsertUser user = some db' ∧
      stage.exec parse order db = (.createSession user, db') := by
  cases stage with
  | upsertUser existing user =>
      rw [Login.exec]
      cases h : db.upsertUser user with
      | none => exact Or.inl rfl
      | some db' => exact Or.inr ⟨existing, user, db', rfl, h, rfl⟩
  | fetchUser body claims => exact Or.inl (by rw [Login.exec]; cases db.fetchUser claims.uid <;> rfl)
  | fetchUserByUsername body claims candidate =>
      exact Or.inl (by rw [Login.exec]; cases db.fetchUserByUsername candidate <;> rfl)
  | fetchChaptersByOwner user =>
      exact Or.inl (by rw [Login.exec]; cases db.fetchChaptersByOwner order user.tokenID <;> rfl)
  | createSession | answered => exact Or.inl rfl

theorem exec_writes (json : Codec Raw) (parse : Text → Option Url) (order : PathOrder) (w : World) (p : Stage Raw) :
    (p.exec json parse order w).2 = w ∨ Writes w p (p.exec json parse order w).2 := by
  cases p with
  | login minted stage set =>
      rw [Stage.exec]
      rcases @execLogin_cases Raw parse order w minted stage set with ⟨user, rfl⟩ | he
      · rw [execLogin]
        cases minted with
        | none => exact Or.inl rfl
        | some id =>
            cases hc : w.sessions.createSession w.db w.now id user.tokenID with
            | none => exact Or.inl (by rw [Option.bind_some, hc])
            | some r => exact Or.inr (by rw [Option.bind_some, hc]; exact .createSession hc)
      · rw [he]
        rcases loginExec_cases parse order w.db stage with hdb | ⟨existing, user, db', rfl, hup, hex⟩
        · exact Or.inl (by rw [hdb])
        · exact Or.inr (by rw [hex]; exact .upsertUser hup)
  | checkUsername => exact Or.inl rfl
  | deleteSession cookie => exact Or.inr .deleteSession
  | requireSession cookie h => exact Or.inl (by rw [Stage.exec]; split <;> rfl)
  | fetchOwner sess owner op =>
      rw [Stage.exec]
      generalize (if owner ≠ [] then w.db.fetchUserByUsername owner else w.db.fetchUser sess.userId) = found
      exact Or.inl (by cases found <;> rfl)
  | fetchPermission => exact Or.inl rfl
  | fetchChapters | loadMoves => exact Or.inl rfl
  | loadCards sess owner read => exact Or.inl (by rw [Stage.exec]; split <;> rfl)
  | createChapter sess owner event proc =>
      rw [Stage.exec]
      rcases CreateProc.exec_cases event proc w.db with h | ⟨moves, rfl, hins⟩
      · exact Or.inl (by rw [h])
      · exact Or.inr (.createChapter hins)
  | fetchOutgoing | fetchIncoming => exact Or.inl rfl
  | fetchTarget sess username change =>
      rw [Stage.exec]
      cases w.db.fetchUserByUsername username with
      | none => exact Or.inl rfl
      | some target =>
          cases change with
          | none => exact Or.inl rfl
          | some permission => exact Or.inl (by dsimp only; split <;> rfl)
  | addCollaborator sess target permission =>
      rw [Stage.exec]
      cases hadd : w.db.addCollaborator sess.userId target.tokenID permission with
      | none => exact Or.inl rfl
      | some db => exact Or.inr (.addCollaborator hadd)
  | removeCollaborator sess target => exact Or.inr .removeCollaborator
  | fetchRoomOwner cookie username msgs =>
      rw [Stage.exec]
      cases w.db.fetchUserByUsername username with
      | none => exact Or.inl rfl
      | some owner => cases cookie <;> exact Or.inl rfl
  | fetchSession cookie owner msgs => exact Or.inl (by rw [Stage.exec]; split <;> rfl)
  | fetchSubscriber sess owner msgs => exact Or.inl (by rw [Stage.exec]; split <;> rfl)
  | fetchRoomPermission sess owner user msgs => exact Or.inl (by rw [Stage.exec]; split <;> rfl)
  | connected sess owner sub msgs =>
      cases msgs with
      | nil => exact Or.inl rfl
      | cons raw msgs => exact Or.inl (by rw [Stage.exec]; cases mutation json sub raw <;> rfl)
  | writing => exact Or.inr .writing
  | elapse d => exact Or.inr .elapse
  | answered => exact Or.inl rfl

/-! ## Table by table -/

theorem exec_users (json : Codec Raw) (parse : Text → Option Url) (order : PathOrder) (w : World) (p : Stage Raw) :
    (p.exec json parse order w).2.db.users = w.db.users ∨
    ∃ minted existing user set db', p = .login minted (.upsertUser existing user) set ∧ w.db.upsertUser user = some db' ∧
      (p.exec json parse order w).2.db = db' := by
  rcases exec_writes json parse order w p with h | h
  · exact Or.inl (by rw [h])
  · generalize (p.exec json parse order w).2 = w' at h ⊢
    cases h with
    | upsertUser write => exact Or.inr ⟨_, _, _, _, _, rfl, write, rfl⟩
    | createChapter write =>
        obtain ⟨t, -, -, rfl⟩ := insertChapter_ok write
        exact Or.inl rfl
    | addCollaborator write =>
        unfold Db.addCollaborator at write
        split at write
        · obtain rfl := Option.some.inj write
          exact Or.inl rfl
        · cases write
    | @writing _ _ _ _ stmt => exact Or.inl (stmt.changes w.db).users
    | createSession | deleteSession | removeCollaborator | elapse => exact Or.inl rfl

theorem exec_chapters (json : Codec Raw) (parse : Text → Option Url) (order : PathOrder) (w : World) (p : Stage Raw) :
    SameChapters w.db (p.exec json parse order w).2.db ∨
    (∃ sess owner event moves, p = .createChapter sess owner event (.commit moves) ∧
      w.db.insertChapter event moves = .ok (p.exec json parse order w).2.db) ∨
    ∃ sess owner sub msgs stmt, p = .writing sess owner sub msgs stmt ∧
      (p.exec json parse order w).2.db = (stmt.exec w.db).2 := by
  rcases exec_writes json parse order w p with h | h
  · exact Or.inl (by rw [h]; exact ⟨rfl, rfl, rfl⟩)
  · generalize (p.exec json parse order w).2 = w' at h ⊢
    cases h with
    | upsertUser write =>
        simp only [Db.upsertUser] at write
        split at write
        · obtain rfl := Option.some.inj write
          exact Or.inl ⟨rfl, rfl, rfl⟩
        · cases write
    | createChapter write => exact Or.inr (Or.inl ⟨_, _, _, _, rfl, write⟩)
    | addCollaborator write =>
        unfold Db.addCollaborator at write
        split at write
        · obtain rfl := Option.some.inj write
          exact Or.inl ⟨rfl, rfl, rfl⟩
        · cases write
    | writing => exact Or.inr (Or.inr ⟨_, _, _, _, _, rfl, rfl⟩)
    | createSession | deleteSession | removeCollaborator | elapse => exact Or.inl ⟨rfl, rfl, rfl⟩

theorem signsIn_iff {sess : SessionRow} : SignsIn sess w p ↔
    ∃ user set, p = .login (some sess.sessionId) (.createSession user) set ∧
      sess = ⟨sess.sessionId, user.tokenID, w.now, w.now + sessionLifetime⟩ ∧ w.sessions.find? sess.sessionId = none := by
  constructor
  · intro h
    cases p with
    | login minted stage set =>
        cases stage with
        | createSession user =>
            obtain ⟨rfl, huser, hat, hto, hnone⟩ := h
            exact ⟨user, set, rfl, by rw [huser, ← hto, ← hat], hnone⟩
        | fetchUser | fetchUserByUsername | upsertUser | fetchChaptersByOwner | answered => exact absurd h id
    | _ => exact absurd h id
  · rintro ⟨user, set, rfl, he, hnone⟩
    exact ⟨rfl, (congrArg SessionRow.userId he).symm, congrArg SessionRow.createdAt he, congrArg SessionRow.expiresAt he, hnone⟩

/-! ## From one stage to the next -/

/-- An answer that shows no repertoire. -/
def Reply.plain : Reply → Prop
  | .repertoire .. => False
  | _ => True

/-- Where a request starts. -/
inductive Began : Request Raw → Stage Raw → Prop
  | login {req : LoginRequest} {minted : Option Text} : Began (.login req minted) (.login minted (Login.start req) none)
  | checkUsername {username candidate : Text} : Began (.checkUsername username) (.checkUsername candidate)
  | deleteSession {method cookie : Text} : Began (.logout method (some cookie)) (.deleteSession cookie)
  | requireSession {cookie : Text} {h : Handler} : Began (.handle (some cookie) h) (.requireSession cookie h)
  | fetchRoomOwner {cookie : Option Text} {username : Text} {msgs : List Raw} :
      Began (.subscribe cookie username msgs) (.fetchRoomOwner cookie username msgs)
  | elapse {d : Int} : Began (.elapse d) (.elapse d)
  | refused {req : Request Raw} {reply : Reply} (plain : reply.plain) : Began req (.answered none reply)

theorem Request.began (req : Request Raw) : Began req req.start := by
  cases req with
  | login req minted => exact .login
  | checkUsername username =>
      rw [Request.start]
      split
      · exact .checkUsername
      · exact .refused trivial
  | logout method cookie =>
      cases cookie with
      | none => rw [Request.start]; split <;> exact .refused trivial
      | some cookie =>
          rw [Request.start]
          split
          · exact .refused trivial
          · exact .deleteSession
  | handle cookie h =>
      cases cookie with
      | none => exact .refused trivial
      | some cookie => exact .requireSession
  | subscribe cookie username msgs =>
      rw [Request.start]
      split
      · exact .refused trivial
      · exact .fetchRoomOwner
  | elapse d => exact .elapse

theorem login_start_cases (req : LoginRequest) : (∃ resp, Login.start req = .answered resp) ∨
    ∃ body claims, Login.start req = .fetchUser body claims ∧ req.claims = some claims := by
  rw [Login.start]
  split
  · exact Or.inl ⟨_, rfl⟩
  · split
    · exact Or.inl ⟨_, rfl⟩
    · split
      · exact Or.inl ⟨_, rfl⟩
      · split
        · exact Or.inl ⟨_, rfl⟩
        · exact Or.inr ⟨_, _, rfl, ‹_›⟩

/-- Where a handler starts once it has its session. -/
inductive Opened (sess : SessionRow) : Stage Raw → Prop
  | owner {name : Text} {op : RepertoireOp} : Opened sess (.fetchOwner sess name op)
  | outgoing : Opened sess (.fetchOutgoing sess)
  | incoming : Opened sess (.fetchIncoming sess)
  | target {username : Text} {change : Option Grant} : Opened sess (.fetchTarget sess username change)
  | refused {status : Nat} {message : String} : Opened sess (.answered (some sess) (.error status message))

theorem Handler.opened (sess : SessionRow) (h : Handler) : Opened sess (h.proceed sess : Stage Raw) := by
  cases h with
  | getRepertoire | postChapter => exact .owner
  | getOutgoingCollaborators => exact .outgoing
  | getIncomingCollaborators => exact .incoming
  | addCollaborator body =>
      cases body with
      | none => exact .refused
      | some body =>
          rw [Handler.proceed]
          split
          · exact .refused
          · split
            · exact .refused
            · exact .target
  | removeCollaborator username =>
      rw [Handler.proceed]
      split
      · exact .refused
      · exact .target

/-- Where a stage can get by one access, with what it has found there. -/
inductive Next (json : Codec Raw) (parse : Text → Option Url) (order : PathOrder) (w : World) : Stage Raw → Stage Raw → Prop
  | login {minted : Option Text} {stage : Login} {set : Option SessionRow} :
      Next json parse order w (.login minted stage set) (.login minted (stage.exec parse order w.db).1 set)
  | refused {minted : Option Text} {user : User} {set : Option SessionRow} :
      Next json parse order w (.login minted (.createSession user) set) (.login minted (.answered (.error 500 "")) set)
  | signedIn {minted : Option Text} {user : User} {set : Option SessionRow} {sess : SessionRow}
      (made : SignsIn sess w (.login minted (.createSession user) set : Stage Raw)) :
      Next json parse order w (.login minted (.createSession user) set) (.login minted (.fetchChaptersByOwner user) (some sess))
  | authenticated {cookie : Text} {h : Handler} {sess : SessionRow} {q : Stage Raw}
      (found : w.sessions.fetchSession w.now cookie = some sess) (opened : Opened sess q) :
      Next json parse order w (.requireSession cookie h) q
  | owner {sess : SessionRow} {name : Text} {op : RepertoireOp} {owner : User} :
      Next json parse order w (.fetchOwner sess name op) (.fetchPermission sess owner op)
  | mayView {sess : SessionRow} {owner : User}
      (perm : (w.db.effectivePermissionOnRepertoire owner.tokenID sess.userId).isSome = true) :
      Next json parse order w (.fetchPermission sess owner .get) (.fetchChapters sess owner)
  | mayEdit {sess : SessionRow} {owner : User} {event : ChapterEvent}
      (perm : canEdit (w.db.effectivePermissionOnRepertoire owner.tokenID sess.userId) = true) :
      Next json parse order w (.fetchPermission sess owner (.post (some event)))
        (.createChapter sess owner { event with ownerID := owner.tokenID } .ownerMultiplier)
  | creates {sess : SessionRow} {owner : User} {event : ChapterEvent} {proc proc' : CreateProc} :
      Next json parse order w (.createChapter sess owner event proc) (.createChapter sess owner event proc')
  | empty {sess : SessionRow} {owner : User} (none : w.db.chaptersByOwner owner.tokenID = []) :
      Next json parse order w (.fetchChapters sess owner) (.answered (some sess) (.repertoire owner []))
  | chapters {sess : SessionRow} {owner : User} :
      Next json parse order w (.fetchChapters sess owner) (.loadMoves sess owner (w.db.chaptersByOwner owner.tokenID))
  | moves {sess : SessionRow} {owner : User} {rows : List ChapterRow} :
      Next json parse order w (.loadMoves sess owner rows) (.loadCards sess owner (w.db.withMoves rows))
  | cards {sess : SessionRow} {owner : User} {read : List (ChapterRow × PathMap)} {chapters : List ChapterTreeResponse}
      (found : w.db.withCards order read = some chapters) :
      Next json parse order w (.loadCards sess owner read) (.answered (some sess) (.repertoire owner chapters))
  | add {sess : SessionRow} {username : Text} {permission : Grant} {target : User}
      (found : w.db.fetchUserByUsername username = some target) (other : target.tokenID ≠ sess.userId) :
      Next json parse order w (.fetchTarget sess username (some permission)) (.addCollaborator sess target permission)
  | remove {sess : SessionRow} {username : Text} {target : User} :
      Next json parse order w (.fetchTarget sess username none) (.removeCollaborator sess target)
  | roomOwner {cookie username : Text} {msgs : List Raw} {owner : User} :
      Next json parse order w (.fetchRoomOwner (some cookie) username msgs) (.fetchSession cookie owner msgs)
  | roomSession {cookie : Text} {owner : User} {msgs : List Raw} {sess : SessionRow}
      (found : w.sessions.fetchSession w.now cookie = some sess) :
      Next json parse order w (.fetchSession cookie owner msgs) (.fetchSubscriber sess owner msgs)
  | subscriber {sess : SessionRow} {owner user : User} {msgs : List Raw} (found : w.db.fetchUser sess.userId = some user) :
      Next json parse order w (.fetchSubscriber sess owner msgs) (.fetchRoomPermission sess owner user msgs)
  | joined {sess : SessionRow} {owner user : User} {msgs : List Raw} {perm : Permission}
      (found : w.db.effectivePermissionOnRepertoire owner.tokenID sess.userId = some perm) :
      Next json parse order w (.fetchRoomPermission sess owner user msgs)
        (.connected sess owner ⟨sess.userId, user.username, user.picture, perm⟩ msgs)
  | message {sess : SessionRow} {owner : User} {sub : Session} {raw : Raw} {msgs : List Raw} :
      Next json parse order w (.connected sess owner sub (raw :: msgs)) (.connected sess owner sub msgs)
  | cleared {sess : SessionRow} {owner : User} {sub : Session} {raw : Raw} {msgs : List Raw} {m : Branch}
      (decoded : mutation json sub raw = some m)
      (gate : authorizeChapter Faults.none w.db sub m.chapterID m.requireEdit = true) :
      Next json parse order w (.connected sess owner sub (raw :: msgs)) (.writing sess owner sub msgs m.start)
  | writes {sess : SessionRow} {owner : User} {sub : Session} {msgs : List Raw} {stmt : Statement} :
      Next json parse order w (.writing sess owner sub msgs stmt) (.writing sess owner sub msgs (stmt.exec w.db).1)
  | written {sess : SessionRow} {owner : User} {sub : Session} {msgs : List Raw} {stmt : Statement} :
      Next json parse order w (.writing sess owner sub msgs stmt) (.connected sess owner sub msgs)
  | ends {p : Stage Raw} {reply : Reply} (plain : reply.plain) : Next json parse order w p (.answered p.session? reply)
  | idle {sess : Option SessionRow} {reply : Reply} : Next json parse order w (.answered sess reply) (.answered sess reply)

theorem exec_next (json : Codec Raw) (parse : Text → Option Url) (order : PathOrder) (w : World) (p : Stage Raw) :
    Next json parse order w p (p.exec json parse order w).1 := by
  cases p with
  | login minted stage set =>
      rw [Stage.exec]
      rcases @execLogin_cases Raw parse order w minted stage set with ⟨user, rfl⟩ | he
      · rw [execLogin]
        cases hc : minted.bind fun id => w.sessions.createSession w.db w.now id user.tokenID with
        | none => exact .refused
        | some r =>
            obtain ⟨id, rfl, hc⟩ := Option.bind_eq_some_iff.mp hc
            obtain ⟨-, hsess, hnone, -⟩ := Sessions.createSession_eq_some.mp hc
            refine .signedIn (signsIn_iff.mpr ⟨user, set, ?_, ?_, ?_⟩)
            · rw [hsess]
            · rw [hsess]
            · rw [hsess]; exact hnone
      · rw [he]
        exact .login
  | requireSession cookie h =>
      rw [Stage.exec]
      cases hf : w.sessions.fetchSession w.now cookie with
      | none => exact .ends trivial
      | some sess => exact .authenticated hf (h.opened sess)
  | fetchOwner sess owner op =>
      rw [Stage.exec]
      split
      · exact .ends trivial
      · exact .owner
  | fetchPermission sess owner op =>
      rw [Stage.exec]
      cases op with
      | get =>
          rw [RepertoireOp.proceed]
          split
          · exact .mayView ‹_›
          · exact .ends trivial
      | post body =>
          cases body with
          | none =>
              rw [RepertoireOp.proceed]
              split <;> exact .ends trivial
          | some event =>
              rw [RepertoireOp.proceed]
              split
              · exact .mayEdit ‹_›
              · exact .ends trivial
  | fetchChapters sess owner =>
      rw [Stage.exec]
      split
      · exact .empty ‹_›
      · exact .chapters
  | loadMoves => exact .moves
  | loadCards sess owner read =>
      rw [Stage.exec]
      cases hf : w.db.withCards order read with
      | none => exact .ends trivial
      | some chapters => exact .cards hf
  | createChapter sess owner event proc =>
      rw [Stage.exec]
      cases (proc.exec event w.db).1 with
      | panicked | returned => exact .ends trivial
      | ownerMultiplier | chapterCount | beginTx | insertChapter | copyMoves | commit => exact .creates
  | fetchTarget sess username change =>
      rw [Stage.exec]
      cases hf : w.db.fetchUserByUsername username with
      | none => exact .ends trivial
      | some target =>
          cases change with
          | none => exact .remove
          | some permission =>
              dsimp only
              split
              · exact .ends trivial
              · rename_i hne
                exact .add hf hne
  | addCollaborator sess target permission =>
      rw [Stage.exec]
      split <;> exact .ends trivial
  | fetchRoomOwner cookie username msgs =>
      rw [Stage.exec]
      cases w.db.fetchUserByUsername username with
      | none => exact .ends trivial
      | some owner =>
          cases cookie with
          | none => exact .ends trivial
          | some cookie => exact .roomOwner
  | fetchSession cookie owner msgs =>
      rw [Stage.exec]
      cases hf : w.sessions.fetchSession w.now cookie with
      | none => exact .ends trivial
      | some sess => exact .roomSession hf
  | fetchSubscriber sess owner msgs =>
      rw [Stage.exec]
      cases hf : w.db.fetchUser sess.userId with
      | none => exact .ends trivial
      | some user => exact .subscriber hf
  | fetchRoomPermission sess owner user msgs =>
      rw [Stage.exec]
      cases hf : w.db.effectivePermissionOnRepertoire owner.tokenID sess.userId with
      | none => exact .ends trivial
      | some perm => exact .joined hf
  | connected sess owner sub msgs =>
      cases msgs with
      | nil => exact .ends trivial
      | cons raw msgs =>
          rw [Stage.exec]
          cases hm : mutation json sub raw with
          | none => exact .message
          | some m =>
              dsimp only
              split
              · exact .cleared hm ‹_›
              · exact .message
  | writing sess owner sub msgs stmt =>
      rw [Stage.exec, Stage.written]
      split
      · exact .written
      · exact .writes
  | checkUsername candidate =>
      rw [Stage.exec]
      split <;> exact .ends trivial
  | deleteSession | fetchOutgoing | fetchIncoming | removeCollaborator | elapse => exact .ends trivial
  | answered sess reply => exact .idle

end Chessrepeat.Site

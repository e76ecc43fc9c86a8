import Mathlib.Algebra.Ring.Nat
import Mathlib.Data.List.Nodup

/-!
# Tables with a primary key

A table is a list of rows no two of which have the same key. The operations are those an SQL statement
makes on one table; what each does is stated on `find?`, the row a key names.
-/

namespace Chessrepeat.Lib

variable {ρ κ : Type*}

/-- The rows of a table whose primary key is `key`. -/
structure Table (key : ρ → κ) where
  rows : List ρ
  nodup : (rows.map key).Nodup

namespace Table

variable {key : ρ → κ}

def empty : Table key := ⟨[], List.nodup_nil⟩

/-- `DELETE ... WHERE p`. -/
def deleteWhere (p : ρ → Bool) (t : Table key) : Table key :=
  ⟨t.rows.filter (fun r => !p r), (List.Sublist.map key List.filter_sublist).nodup t.nodup⟩

/-- `UPDATE ... SET f WHERE p`, for a change `f` that leaves the key alone. -/
def update (p : ρ → Bool) (f : ρ → ρ) (hf : ∀ r, key (f r) = key r) (t : Table key) : Table key :=
  ⟨t.rows.map (fun r => if p r then f r else r), by
    have h : (key ∘ fun r => if p r then f r else r) = key := by
      funext r; simp only [Function.comp_apply]; split
      · exact hf r
      · rfl
    rw [List.map_map, h]; exact t.nodup⟩

/-- `SELECT count(*) ... WHERE p`. -/
def countWhere (p : ρ → Bool) (t : Table key) : Nat := t.rows.countP p

@[simp] theorem mem_deleteWhere {p : ρ → Bool} {t : Table key} {r : ρ} :
    r ∈ (t.deleteWhere p).rows ↔ r ∈ t.rows ∧ p r = false := by
  simp [deleteWhere]

@[simp] theorem mem_update {p : ρ → Bool} {f : ρ → ρ} {hf : ∀ r, key (f r) = key r} {t : Table key} {r : ρ} :
    r ∈ (t.update p f hf).rows ↔ ∃ r₀ ∈ t.rows, (if p r₀ then f r₀ else r₀) = r := by
  simp [update]

variable [DecidableEq κ]

/-- The row with key `k`. -/
def find? (t : Table key) (k : κ) : Option ρ := t.rows.find? (fun r => key r = k)

/-- `SELECT EXISTS` on the key. -/
def has (t : Table key) (k : κ) : Bool := (t.find? k).isSome

theorem find?_eq_some {t : Table key} {k : κ} {r : ρ} : t.find? k = some r ↔ r ∈ t.rows ∧ key r = k := by
  constructor
  · intro h
    exact ⟨List.mem_of_find?_eq_some h, by simpa using List.find?_some h⟩
  · rintro ⟨hr, rfl⟩
    cases h : t.find? (key r) with
    | none =>
        have := List.find?_eq_none.mp h r hr
        simp at this
    | some r' =>
        have hk : key r' = key r := by simpa using List.find?_some h
        rw [List.inj_on_of_nodup_map t.nodup (List.mem_of_find?_eq_some h) hr hk]

theorem has_iff {t : Table key} {k : κ} : t.has k = true ↔ ∃ r ∈ t.rows, key r = k := by
  simp only [has, Option.isSome_iff_exists, find?_eq_some]

theorem find?_none {t : Table key} {k : κ} : t.find? k = none ↔ ∀ r ∈ t.rows, key r ≠ k := by
  simp [find?, List.find?_eq_none]

/-- Two tables with the same rows under every key that one of them has. -/
theorem find?_congr {t u : Table key} {k : κ} (h : ∀ r, key r = k → (r ∈ t.rows ↔ r ∈ u.rows)) :
    t.find? k = u.find? k := by
  refine Option.ext fun r => ?_
  rw [find?_eq_some, find?_eq_some]
  exact ⟨fun hr => ⟨(h r hr.2).mp hr.1, hr.2⟩, fun hr => ⟨(h r hr.2).mpr hr.1, hr.2⟩⟩

/-- There is at most one row with a key. -/
theorem filter_key (t : Table key) (k : κ) : t.rows.filter (fun r => key r = k) = (t.find? k).toList := by
  obtain ⟨rows, hn⟩ := t
  unfold find?
  induction rows with
  | nil => rfl
  | cons r rows ih =>
      rw [List.map_cons, List.nodup_cons] at hn
      change (r :: rows).filter (fun r => key r = k) = ((r :: rows).find? (fun r => key r = k)).toList
      by_cases hk : key r = k
      · have hnil : rows.filter (fun r => key r = k) = [] := List.filter_eq_nil_iff.mpr fun x hx he =>
          hn.1 (hk.trans (of_decide_eq_true he).symm ▸ List.mem_map_of_mem hx)
        rw [List.filter_cons_of_pos (by simp [hk]), List.find?_cons_of_pos (by simp [hk]), hnil]
        rfl
      · rw [List.filter_cons_of_neg (by simp [hk]), List.find?_cons_of_neg (by simp [hk])]
        exact ih hn.2

/-- Some row with the key is such if and only if the one with the key is. -/
theorem any_key {p : ρ → Bool} {t : Table key} {k : κ} : (t.rows.any fun r => p r && key r = k) = (t.find? k).any p := by
  rw [Bool.eq_iff_iff, List.any_eq_true, Option.any_eq_true]
  refine exists_congr fun r => ?_
  rw [find?_eq_some, Bool.and_eq_true, decide_eq_true_eq]
  tauto

/-! ## Deleting and updating -/

theorem find?_deleteWhere {p : ρ → Bool} {t : Table key} {k : κ} :
    (t.deleteWhere p).find? k = (t.find? k).filter (fun r => !p r) := by
  refine Option.ext fun r => ?_
  simp only [find?_eq_some, mem_deleteWhere, Option.filter_eq_some_iff, Bool.not_eq_true']
  tauto

/-- `DELETE` by the key. -/
theorem find?_deleteKey {p : ρ → Bool} {t : Table key} {k : κ} (hp : ∀ r, p r = true ↔ key r = k) (k' : κ) :
    (t.deleteWhere p).find? k' = if k = k' then none else t.find? k' := by
  rw [find?_deleteWhere]
  cases hf : t.find? k' with
  | none => simp
  | some r =>
      obtain ⟨-, rfl⟩ := find?_eq_some.mp hf
      by_cases hk : k = key r
      · rw [if_pos hk, Option.filter_some, if_neg (by simpa using (hp r).mpr hk.symm)]
      · rw [if_neg hk, Option.filter_some, if_pos (by simpa using fun h => hk ((hp r).mp h).symm)]

theorem find?_update {p : ρ → Bool} {f : ρ → ρ} {hf : ∀ r, key (f r) = key r} {t : Table key} {k : κ} :
    (t.update p f hf).find? k = (t.find? k).map (fun r => if p r then f r else r) := by
  refine Option.ext fun r => ?_
  simp only [find?_eq_some, mem_update, Option.map_eq_some_iff]
  constructor
  · rintro ⟨⟨r₀, hr₀, rfl⟩, rfl⟩
    refine ⟨r₀, ⟨hr₀, ?_⟩, rfl⟩
    split
    · exact (hf r₀).symm
    · rfl
  · rintro ⟨r₀, ⟨hr₀, rfl⟩, rfl⟩
    refine ⟨⟨r₀, hr₀, rfl⟩, ?_⟩
    split
    · exact hf r₀
    · rfl

@[simp] theorem has_update {p : ρ → Bool} {f : ρ → ρ} {hf : ∀ r, key (f r) = key r} {t : Table key} {k : κ} :
    (t.update p f hf).has k = t.has k := by
  simp [has, find?_update]

/-! ## Inserting -/

/-- Replace the row that has `r`'s key, or append `r`. -/
def upsertRows (key : ρ → κ) (r : ρ) : List ρ → List ρ
  | [] => [r]
  | r' :: rs => if key r' = key r then r :: rs else r' :: upsertRows key r rs

theorem map_key_upsertRows (r : ρ) (rs : List ρ) :
    (upsertRows key r rs).map key = if key r ∈ rs.map key then rs.map key else rs.map key ++ [key r] := by
  induction rs with
  | nil => simp [upsertRows]
  | cons r' rs ih =>
      by_cases h : key r' = key r
      · simp [upsertRows, h]
      · simp only [upsertRows, h, if_false, List.map_cons, ih, List.mem_cons, Ne.symm h, false_or]
        split <;> simp

theorem upsertRows_of_not_mem {r : ρ} {rs : List ρ} (h : key r ∉ rs.map key) : upsertRows key r rs = rs ++ [r] := by
  induction rs with
  | nil => rfl
  | cons r' rs ih =>
      rw [List.map_cons, List.mem_cons, not_or] at h
      rw [upsertRows, if_neg (Ne.symm h.1), ih h.2, List.cons_append]

theorem mem_upsertRows {r x : ρ} {rs : List ρ} (hn : (rs.map key).Nodup) :
    x ∈ upsertRows key r rs ↔ x = r ∨ (x ∈ rs ∧ key x ≠ key r) := by
  induction rs with
  | nil => simp [upsertRows]
  | cons r' rs ih =>
      rw [List.map_cons, List.nodup_cons] at hn
      by_cases h : key r' = key r
      · have hne : ∀ y ∈ rs, key y ≠ key r := fun y hy he => hn.1 (List.mem_map.mpr ⟨y, hy, he.trans h.symm⟩)
        simp only [upsertRows, h, if_true, List.mem_cons]
        constructor
        · rintro (rfl | hx)
          · exact Or.inl rfl
          · exact Or.inr ⟨Or.inr hx, hne x hx⟩
        · rintro (rfl | ⟨rfl | hx, hk⟩)
          · exact Or.inl rfl
          · exact absurd h hk
          · exact Or.inr hx
      · simp only [upsertRows, h, if_false, List.mem_cons, ih hn.2]
        constructor
        · rintro (rfl | rfl | ⟨hx, hk⟩)
          · exact Or.inr ⟨Or.inl rfl, h⟩
          · exact Or.inl rfl
          · exact Or.inr ⟨Or.inr hx, hk⟩
        · rintro (rfl | ⟨rfl | hx, hk⟩)
          · exact Or.inr (Or.inl rfl)
          · exact Or.inl rfl
          · exact Or.inr (Or.inr ⟨hx, hk⟩)

/-- `INSERT ... ON CONFLICT (key) DO UPDATE` that sets every column outside the key. -/
def upsert (r : ρ) (t : Table key) : Table key :=
  ⟨upsertRows key r t.rows, by
    rw [map_key_upsertRows]
    split
    · exact t.nodup
    · rename_i h
      exact List.nodup_append.mpr ⟨t.nodup, by simp, by
        intro k hk k' hk' he
        rw [List.mem_singleton] at hk'; subst hk' he; exact h hk⟩⟩

@[simp] theorem mem_upsert {r x : ρ} {t : Table key} :
    x ∈ (t.upsert r).rows ↔ x = r ∨ (x ∈ t.rows ∧ key x ≠ key r) :=
  mem_upsertRows t.nodup

theorem find?_upsert {r : ρ} {t : Table key} {k : κ} :
    (t.upsert r).find? k = if key r = k then some r else t.find? k := by
  split
  · rename_i h
    exact find?_eq_some.mpr ⟨mem_upsert.mpr (Or.inl rfl), h⟩
  · rename_i h
    refine find?_congr fun x hx => ?_
    rw [mem_upsert]
    constructor
    · rintro (rfl | hx')
      · exact absurd hx h
      · exact hx'.1
    · exact fun hx' => Or.inr ⟨hx', fun he => h (he.symm.trans hx)⟩

theorem rows_upsert_of_not_mem {r : ρ} {t : Table key} (h : key r ∉ t.rows.map key) : (t.upsert r).rows = t.rows ++ [r] :=
  upsertRows_of_not_mem h

/-- The new row counts in the place of the one it replaces. -/
theorem sum_upsert (f : ρ → Nat) (r : ρ) (t : Table key) :
    ((t.upsert r).rows.map f).sum + ((t.find? (key r)).map f).getD 0 = (t.rows.map f).sum + f r := by
  suffices hrows : ∀ rs : List ρ, ((upsertRows key r rs).map f).sum + ((rs.find? fun r' => key r' = key r).map f).getD 0 =
      (rs.map f).sum + f r from hrows t.rows
  intro rs
  induction rs with
  | nil => simp [upsertRows]
  | cons r' rs ih =>
      by_cases h : key r' = key r
      · rw [upsertRows, if_pos h, List.find?_cons_of_pos (by simpa using h)]
        simp only [List.map_cons, List.sum_cons, Option.map_some, Option.getD_some]
        omega
      · rw [upsertRows, if_neg h, List.find?_cons_of_neg (by simpa using h)]
        simp only [List.map_cons, List.sum_cons]
        omega

theorem has_upsert {r : ρ} {t : Table key} {k : κ} :
    (t.upsert r).has k = true ↔ key r = k ∨ t.has k = true := by
  rw [has, find?_upsert]
  split
  · rename_i h; simp [h]
  · rename_i h; simp [h, has]

/-- `INSERT` without a conflict clause: an error when the key is taken. -/
def insert? (r : ρ) (t : Table key) : Option (Table key) :=
  if t.has (key r) then none else some (t.upsert r)

theorem insert?_eq_some {r : ρ} {t u : Table key} :
    t.insert? r = some u ↔ t.find? (key r) = none ∧ u = t.upsert r := by
  unfold insert? has
  cases t.find? (key r) with
  | none => simp [eq_comm]
  | some r' => simp

/-- Rows inserted one after the other; one taken key fails the whole load. -/
def insertAll? : List ρ → Table key → Option (Table key)
  | [], t => some t
  | r :: rs, t => (t.insert? r).bind (insertAll? rs)

/-- Rows whose keys are new and differ are loaded. -/
theorem exists_insertAll? {rs : List ρ} {t : Table key} (hd : (rs.map key).Nodup) (hnew : ∀ r ∈ rs, t.has (key r) = false) :
    ∃ u, insertAll? rs t = some u := by
  induction rs generalizing t with
  | nil => exact ⟨t, rfl⟩
  | cons r rs ih =>
      rw [List.map_cons, List.nodup_cons] at hd
      have hinsert : t.insert? r = some (t.upsert r) := by
        rw [insert?, hnew r List.mem_cons_self]
        rfl
      rw [insertAll?, hinsert, Option.bind_some]
      refine ih hd.2 fun x hx => Bool.eq_false_iff.mpr fun hhas => ?_
      rcases has_upsert.mp hhas with hk | hhas
      · exact hd.1 (hk ▸ List.mem_map_of_mem hx)
      · rw [hnew x (List.mem_cons_of_mem _ hx)] at hhas
        cases hhas

/-- A load changes nothing under the keys that none of its rows has. -/
theorem find?_insertAll? {rs : List ρ} {t u : Table key} (h : insertAll? rs t = some u) {k : κ}
    (hk : ∀ r ∈ rs, key r ≠ k) : u.find? k = t.find? k := by
  induction rs generalizing t with
  | nil => cases h; rfl
  | cons r rs ih =>
      obtain ⟨t', ht', hu⟩ := Option.bind_eq_some_iff.mp h
      obtain ⟨-, rfl⟩ := insert?_eq_some.mp ht'
      rw [ih hu (fun x hx => hk x (List.mem_cons_of_mem _ hx)), find?_upsert,
        if_neg (hk r List.mem_cons_self)]

/-- The rows after a load are the rows before it and the loaded ones. -/
theorem mem_insertAll? {rs : List ρ} {t u : Table key} (h : insertAll? rs t = some u) {x : ρ} :
    x ∈ u.rows ↔ x ∈ t.rows ∨ x ∈ rs := by
  induction rs generalizing t with
  | nil => cases h; simp
  | cons r rs ih =>
      obtain ⟨t', ht', hu⟩ := Option.bind_eq_some_iff.mp h
      obtain ⟨hf, rfl⟩ := insert?_eq_some.mp ht'
      rw [ih hu, mem_upsert, List.mem_cons]
      constructor
      · rintro ((rfl | hx) | hx)
        · exact Or.inr (Or.inl rfl)
        · exact Or.inl hx.1
        · exact Or.inr (Or.inr hx)
      · rintro (hx | rfl | hx)
        · exact Or.inl (Or.inr ⟨hx, find?_none.mp hf x hx⟩)
        · exact Or.inl (Or.inl rfl)
        · exact Or.inr hx

end Table

end Chessrepeat.Lib

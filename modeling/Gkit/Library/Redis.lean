import Mathlib

/-!
Redis values as the scripts see them. A hash and a sorted set are finite maps from
distinct fields (members) to values (scores); `Assoc` carries the distinctness with it.
A sorted set orders its members by score and then by member, as `ZRANGE` and
`ZRANGEBYSCORE` return them. Only what the scripts call is defined: `HGET`, `HEXISTS`,
`HSET`, `HDEL`, `ZSCORE`, `ZADD`, `ZADD NX`, `ZREM`, `ZCARD`, `ZRANGE 0 k`,
`ZRANGEBYSCORE -inf max LIMIT 0 k`.
-/

namespace Redis

/-- A finite map kept as its entries, with distinct keys. -/
structure Assoc (κ ν : Type) where
  entries : List (κ × ν)
  nodup : (entries.map Prod.fst).Nodup

namespace Assoc

variable {κ ν : Type}

theorem eq_of_mem {a : Assoc κ ν} {k : κ} {v w : ν} (hv : (k,v) ∈ a.entries)
    (hw : (k,w) ∈ a.entries) : v = w := by
  have := List.inj_on_of_nodup_map a.nodup hv hw rfl
  simpa using this

variable [DecidableEq κ]

instance [DecidableEq ν] : DecidableEq (Assoc κ ν) := fun a b =>
  if h : a.entries = b.entries then
    .isTrue (by cases a; cases b; cases h; rfl)
  else .isFalse (fun e => h (e ▸ rfl))

def empty : Assoc κ ν := ⟨[],List.nodup_nil⟩

def get? (a : Assoc κ ν) (k : κ) : Option ν := (a.entries.find? (·.1 == k)).map Prod.snd

def contains (a : Assoc κ ν) (k : κ) : Bool := (a.get? k).isSome

def keys (a : Assoc κ ν) : List κ := a.entries.map Prod.fst

def values (a : Assoc κ ν) : List ν := a.entries.map Prod.snd

/-- `HDEL`, `ZREM`: drop the entry of `k`, if any. -/
def erase (a : Assoc κ ν) (k : κ) : Assoc κ ν :=
  ⟨a.entries.eraseP (·.1 == k),(List.eraseP_sublist.map Prod.fst).nodup a.nodup⟩

/-! ### Lookups -/

theorem get?_eq_some {a : Assoc κ ν} {k : κ} {v : ν} : a.get? k = some v ↔ (k,v) ∈ a.entries := by
  constructor
  · intro h
    obtain ⟨p,hp,rfl⟩ := Option.map_eq_some_iff.mp h
    have hk : p.1 = k := by simpa using List.find?_some hp
    have hm := List.mem_of_find?_eq_some hp
    rw [← hk]
    exact hm
  · intro h
    cases hf : a.entries.find? (·.1 == k) with
    | none =>
      rw [List.find?_eq_none] at hf
      exact absurd (by simp) (hf _ h)
    | some p =>
      have hk : p.1 = k := by simpa using List.find?_some hf
      have hm := List.mem_of_find?_eq_some hf
      have hpv : p = (k,v) := by
        obtain ⟨pk,pv⟩ := p
        simp only at hk
        subst hk
        rw [eq_of_mem hm h]
      simp [get?, hf, hpv]

theorem get?_eq_none {a : Assoc κ ν} {k : κ} : a.get? k = none ↔ k ∉ a.keys := by
  constructor
  · intro h hk
    obtain ⟨p,hp,rfl⟩ := List.mem_map.mp hk
    have := get?_eq_some.mpr (show (p.1,p.2) ∈ a.entries from hp)
    simp [h] at this
  · intro h
    cases hv : a.get? k with
    | none => rfl
    | some v => exact absurd (List.mem_map_of_mem (get?_eq_some.mp hv)) h

omit [DecidableEq κ] in
theorem mem_keys {a : Assoc κ ν} {k : κ} : k ∈ a.keys ↔ ∃ v, (k,v) ∈ a.entries := by
  unfold keys
  constructor
  · intro h
    obtain ⟨p,hp,rfl⟩ := List.mem_map.mp h
    exact ⟨p.2,hp⟩
  · rintro ⟨v,hv⟩
    exact List.mem_map_of_mem (f := Prod.fst) hv

@[simp] theorem contains_iff {a : Assoc κ ν} {k : κ} : a.contains k = true ↔ k ∈ a.keys := by
  unfold contains
  cases hv : a.get? k with
  | none => simpa using get?_eq_none.mp hv
  | some v =>
    simp only [Option.isSome_some, true_iff]
    exact mem_keys.mpr ⟨v,get?_eq_some.mp hv⟩

/-- `HSET`, `ZADD`: overwrite the value of `k` in place, or append a new entry. -/
def insert (a : Assoc κ ν) (k : κ) (v : ν) : Assoc κ ν :=
  if h : a.contains k then
    ⟨a.entries.map (fun p => if p.1 = k then (k,v) else p),by
      have : (a.entries.map (fun p => if p.1 = k then (k,v) else p)).map Prod.fst =
          a.entries.map Prod.fst := by
        rw [List.map_map]
        apply List.map_congr_left
        intro p _
        by_cases hp : p.1 = k <;> simp [hp]
      rw [this]
      exact a.nodup⟩
  else
    ⟨a.entries ++ [(k,v)],by
      rw [List.map_append, List.nodup_append]
      refine ⟨a.nodup,List.nodup_singleton _,?_⟩
      intro x hx y hy
      simp only [List.map_cons, List.map_nil, List.mem_singleton] at hy
      subst hy
      intro hxk
      subst hxk
      obtain ⟨p,hp,rfl⟩ := List.mem_map.mp hx
      exact h (contains_iff.mpr (List.mem_map_of_mem hp))⟩

@[simp] theorem get?_empty (k : κ) : (empty : Assoc κ ν).get? k = none := rfl

/-- Distinct keys: the entries split around the entry of `k`, which `erase` drops and no
other entry shares the key of. -/
theorem split_of_mem {a : Assoc κ ν} {k : κ} {v : ν} (h : (k,v) ∈ a.entries) :
    ∃ l₁ l₂, a.entries = l₁ ++ (k,v) :: l₂ ∧ (a.erase k).entries = l₁ ++ l₂ ∧
      k ∉ (l₁ ++ l₂).map Prod.fst := by
  obtain ⟨x,l₁,l₂,-,hx,he,her⟩ :=
    List.exists_of_eraseP (p := fun x : κ × ν => x.1 == k) h (by simp)
  have hxk : x.1 = k := by simpa using hx
  have hxv : x = (k,v) := by
    obtain ⟨xk,xv⟩ := x
    simp only at hxk
    subst hxk
    have hx' : (xk,xv) ∈ a.entries := by
      rw [he]
      exact List.mem_append_right l₁ List.mem_cons_self
    rw [eq_of_mem hx' h]
  subst hxv
  have hn := a.nodup
  rw [he, List.map_append, List.map_cons, List.nodup_middle, List.nodup_cons] at hn
  exact ⟨l₁,l₂,he,her,by simpa using hn.1⟩

theorem erase_of_not_mem {a : Assoc κ ν} {k : κ} (h : k ∉ a.keys) : a.erase k = a := by
  have : a.entries.eraseP (·.1 == k) = a.entries := by
    apply List.eraseP_of_forall_not
    intro p hp hpk
    exact h (List.mem_map.mpr ⟨p,hp,by simpa using hpk⟩)
  cases a
  simp only [erase, Assoc.mk.injEq]
  exact this

theorem erase_of_contains {a : Assoc κ ν} {k : κ} (h : a.contains k = false) : a.erase k = a :=
  erase_of_not_mem (fun hk => by rw [contains_iff.mpr hk] at h; cases h)

theorem mem_erase {a : Assoc κ ν} {k k' : κ} {v' : ν} :
    (k',v') ∈ (a.erase k).entries ↔ k' ≠ k ∧ (k',v') ∈ a.entries := by
  by_cases hk : k ∈ a.keys
  · obtain ⟨v,hv⟩ := mem_keys.mp hk
    obtain ⟨l₁,l₂,he,her,hn⟩ := split_of_mem hv
    rw [her]
    constructor
    · intro h
      refine ⟨?_,by rw [he]; simp at h ⊢; tauto⟩
      rintro rfl
      exact hn (List.mem_map_of_mem (f := Prod.fst) h)
    · rintro ⟨hne,h⟩
      rw [he] at h
      simp only [List.mem_append, List.mem_cons, Prod.mk.injEq] at h ⊢
      rcases h with h | ⟨rfl,-⟩ | h
      · exact .inl h
      · exact absurd rfl hne
      · exact .inr h
  · rw [erase_of_not_mem hk]
    constructor
    · intro h
      refine ⟨?_,h⟩
      rintro rfl
      exact hk (mem_keys.mpr ⟨v',h⟩)
    · exact fun h => h.2

theorem mem_insert {a : Assoc κ ν} {k k' : κ} {v v' : ν} :
    (k',v') ∈ (a.insert k v).entries ↔ (k' = k ∧ v' = v) ∨ (k' ≠ k ∧ (k',v') ∈ a.entries) := by
  unfold insert
  split
  · rename_i hc
    simp only [List.mem_map]
    constructor
    · rintro ⟨p,hp,he⟩
      by_cases hpk : p.1 = k
      · simp only [hpk, if_true, Prod.mk.injEq] at he
        exact .inl ⟨he.1.symm,he.2.symm⟩
      · simp only [hpk, if_false] at he
        subst he
        exact .inr ⟨hpk,hp⟩
    · rintro (⟨rfl,rfl⟩ | ⟨hne,h⟩)
      · obtain ⟨w,hw⟩ := mem_keys.mp (contains_iff.mp hc)
        exact ⟨(k',w),hw,by simp⟩
      · exact ⟨(k',v'),h,by simp [hne]⟩
  · rename_i hc
    have hk : k ∉ a.keys := fun h => hc (contains_iff.mpr h)
    simp only [List.mem_append, List.mem_singleton, Prod.mk.injEq]
    constructor
    · rintro (h | ⟨rfl,rfl⟩)
      · refine .inr ⟨?_,h⟩
        rintro rfl
        exact hk (mem_keys.mpr ⟨v',h⟩)
      · exact .inl ⟨rfl,rfl⟩
    · rintro (⟨rfl,rfl⟩ | ⟨-,h⟩)
      · exact .inr ⟨rfl,rfl⟩
      · exact .inl h

@[simp] theorem get?_erase_self (a : Assoc κ ν) (k : κ) : (a.erase k).get? k = none := by
  cases h : (a.erase k).get? k with
  | none => rfl
  | some v => exact absurd rfl (mem_erase.mp (get?_eq_some.mp h)).1

theorem get?_erase_ne (a : Assoc κ ν) {k k' : κ} (h : k' ≠ k) :
    (a.erase k).get? k' = a.get? k' := by
  cases hv : a.get? k' with
  | none =>
    cases hv' : (a.erase k).get? k' with
    | none => rfl
    | some w => rw [get?_eq_some.mpr (mem_erase.mp (get?_eq_some.mp hv')).2] at hv; cases hv
  | some v => exact get?_eq_some.mpr (mem_erase.mpr ⟨h,get?_eq_some.mp hv⟩)

@[simp] theorem get?_insert_self (a : Assoc κ ν) (k : κ) (v : ν) : (a.insert k v).get? k = some v :=
  get?_eq_some.mpr (mem_insert.mpr (.inl ⟨rfl,rfl⟩))

theorem get?_insert_ne (a : Assoc κ ν) {k k' : κ} (v : ν) (h : k' ≠ k) :
    (a.insert k v).get? k' = a.get? k' := by
  cases hv : a.get? k' with
  | none =>
    cases hv' : (a.insert k v).get? k' with
    | none => rfl
    | some w =>
      rcases mem_insert.mp (get?_eq_some.mp hv') with ⟨rfl,-⟩ | ⟨-,hw⟩
      · exact absurd rfl h
      · rw [get?_eq_some.mpr hw] at hv; cases hv
  | some v' => exact get?_eq_some.mpr (mem_insert.mpr (.inr ⟨h,get?_eq_some.mp hv⟩))

theorem get?_erase (a : Assoc κ ν) (k k' : κ) :
    (a.erase k).get? k' = if k' = k then none else a.get? k' := by
  split
  · subst k'; exact get?_erase_self a _
  · exact get?_erase_ne a (by assumption)

theorem get?_insert (a : Assoc κ ν) (k k' : κ) (v : ν) :
    (a.insert k v).get? k' = if k' = k then some v else a.get? k' := by
  split
  · subst k'; exact get?_insert_self a _ v
  · exact get?_insert_ne a v (by assumption)

theorem contains_eq (a : Assoc κ ν) (k : κ) : a.contains k = (a.get? k).isSome := rfl

@[simp] theorem contains_erase (a : Assoc κ ν) (k k' : κ) :
    (a.erase k).contains k' = (decide (k' ≠ k) && a.contains k') := by
  rw [contains_eq, contains_eq, get?_erase]
  by_cases h : k' = k <;> simp [h]

@[simp] theorem contains_insert (a : Assoc κ ν) (k k' : κ) (v : ν) :
    (a.insert k v).contains k' = (decide (k' = k) || a.contains k') := by
  rw [contains_eq, contains_eq, get?_insert]
  by_cases h : k' = k <;> simp [h]

/-! ### The values, as a multiset -/

theorem values_erase_perm {a : Assoc κ ν} {k : κ} {v : ν} (h : a.get? k = some v) :
    a.values.Perm (v :: (a.erase k).values) := by
  obtain ⟨l₁,l₂,he,her,-⟩ := split_of_mem (get?_eq_some.mp h)
  unfold values
  rw [he, her, List.map_append, List.map_append, List.map_cons]
  exact List.perm_middle

theorem values_insert_of_none {a : Assoc κ ν} {k : κ} (h : a.get? k = none) (v : ν) :
    (a.insert k v).values = a.values ++ [v] := by
  have hc : a.contains k = false := by simp [contains, h]
  unfold insert values
  rw [dif_neg (by simp [hc])]
  simp

/-- Moving a value to a new key, as the scripts move an envelope to a new token, keeps
the other values and puts the new one in place of the old. -/
theorem values_rename_perm {a : Assoc κ ν} {k k' : κ} {v : ν} (hk : a.get? k = some v)
    (hk' : a.get? k' = none) (v' : ν) :
    ((a.insert k' v').erase k).values.Perm (v' :: (a.erase k).values) := by
  have hne : k ≠ k' := by
    rintro rfl
    rw [hk] at hk'
    cases hk'
  have hmoved : (a.insert k' v').get? k = some v := by rw [get?_insert_ne _ _ hne]; exact hk
  have hnew := values_erase_perm hmoved
  rw [values_insert_of_none hk'] at hnew
  have hold := (values_erase_perm hk).append_right [v']
  exact (hnew.symm.trans hold).cons_inv.trans (List.perm_append_singleton _ _)

theorem mem_keys_insert {a : Assoc κ ν} {k k' : κ} {v : ν} :
    k' ∈ (a.insert k v).keys ↔ k' = k ∨ k' ∈ a.keys := by
  simp only [mem_keys, mem_insert]
  constructor
  · rintro ⟨w,⟨rfl,-⟩ | ⟨-,hw⟩⟩
    · exact .inl rfl
    · exact .inr ⟨w,hw⟩
  · rintro (rfl | ⟨w,hw⟩)
    · exact ⟨v,.inl ⟨rfl,rfl⟩⟩
    · by_cases hk : k' = k
      · exact ⟨v,.inl ⟨hk,rfl⟩⟩
      · exact ⟨w,.inr ⟨hk,hw⟩⟩

/-- `ZREM key m₁ m₂ ...`, `HDEL key f₁ f₂ ...`. -/
def eraseAll (a : Assoc κ ν) (ks : List κ) : Assoc κ ν := ks.foldl erase a

theorem get?_eraseAll (a : Assoc κ ν) (ks : List κ) (k : κ) :
    (a.eraseAll ks).get? k = if k ∈ ks then none else a.get? k := by
  induction ks generalizing a with
  | nil => simp [eraseAll]
  | cons k' ks ih =>
    simp only [eraseAll, List.foldl_cons] at ih ⊢
    rw [ih, get?_erase]
    by_cases h₁ : k ∈ ks
    · simp [h₁]
    · by_cases h₂ : k = k' <;> simp [h₁, h₂]

@[simp] theorem contains_eraseAll (a : Assoc κ ν) (ks : List κ) (k : κ) :
    (a.eraseAll ks).contains k = (decide (k ∉ ks) && a.contains k) := by
  rw [contains_eq, contains_eq, get?_eraseAll]
  by_cases h : k ∈ ks <;> simp [h]

/-- `ZADD key NX`, `HSETNX`: set only an absent key. -/
def insertNX (a : Assoc κ ν) (k : κ) (v : ν) : Assoc κ ν := if a.contains k then a else a.insert k v

theorem mem_keys_insertNX {a : Assoc κ ν} {k k' : κ} {v : ν} :
    k' ∈ (a.insertNX k v).keys ↔ k' = k ∨ k' ∈ a.keys := by
  unfold insertNX
  split
  · rename_i hc
    constructor
    · exact .inr
    · rintro (rfl | h)
      · exact contains_iff.mp hc
      · exact h
  · exact mem_keys_insert

/-! ### Loops over lists with distinct keys -/

section Keyed

variable {α : Type}

theorem find?_key_eq_some {key : α → κ} {l : List α} (hnd : (l.map key).Nodup) {x : α} (hx : x ∈ l) :
    l.find? (key · == key x) = some x := by
  induction l with
  | nil => cases hx
  | cons y l ih =>
    have hy := (List.nodup_cons.mp hnd).1
    by_cases hk : key y = key x
    · -- the key is `y`'s, and no later member has it, so `x` is `y`
      have hxy : x = y := by
        rcases List.mem_cons.mp hx with rfl | hl
        · rfl
        · exact absurd (hk ▸ List.mem_map_of_mem hl) hy
      rw [List.find?_cons_of_pos (by simpa using hk), hxy]
    · have hl : x ∈ l := by
        rcases List.mem_cons.mp hx with rfl | hl
        · exact absurd rfl hk
        · exact hl
      rw [List.find?_cons_of_neg (by simpa using hk)]
      exact ih (List.nodup_cons.mp hnd).2 hl

/-- Visiting a list with distinct keys in another order finds the same member for each key:
what a loop over a map reads does not depend on the order the map hands its entries out. -/
theorem find?_key_perm {key : α → κ} {l₁ l₂ : List α} (hp : l₁.Perm l₂) (hnd : (l₁.map key).Nodup) (k : κ) :
    l₁.find? (key · == k) = l₂.find? (key · == k) := by
  cases h : l₁.find? (key · == k) with
  | none =>
    refine (List.find?_eq_none.mpr fun x hx => ?_).symm
    exact List.find?_eq_none.mp h x (hp.mem_iff.mpr hx)
  | some x =>
    have hk : key x = k := by simpa using List.find?_some h
    rw [← hk, find?_key_eq_some ((hp.map key).nodup_iff.mp hnd) (hp.subset (List.mem_of_find?_eq_some h))]

/-- The loop `m[key x] = f(m[key x], x)` over a list with distinct keys: a key of the list
ends with the update of the value it had before the loop, any other key keeps its value. -/
theorem get?_foldl_upsert (key : α → κ) (f : Option ν → α → ν) (step : Assoc κ ν → α → Assoc κ ν)
    (hstep : ∀ a x, step a x = a.insert (key x) (f (a.get? (key x)) x)) (xs : List α)
    (hxs : (xs.map key).Nodup) (a : Assoc κ ν) (k : κ) :
    (xs.foldl step a).get? k =
      match xs.find? (key · == k) with
      | some x => some (f (a.get? k) x)
      | none => a.get? k := by
  induction xs generalizing a with
  | nil => rfl
  | cons x xs ih =>
    have hx := (List.nodup_cons.mp hxs).1
    rw [List.foldl_cons, ih (List.nodup_cons.mp hxs).2, hstep]
    by_cases hk : key x = k
    · -- `x` is the only member with the key
      subst hk
      have hnone : xs.find? (key · == key x) = none :=
        List.find?_eq_none.mpr fun y hy hyx => hx (by
          rw [← beq_iff_eq.mp hyx]
          exact List.mem_map_of_mem hy)
      rw [hnone, List.find?_cons_of_pos (by simp), get?_insert_self]
    · rw [List.find?_cons_of_neg (by simpa using hk), get?_insert_ne _ _ (Ne.symm hk)]

end Keyed

end Assoc

/-! ### Sorted sets -/

/-- A sorted set: members with their scores. -/
abbrev ZSet (α : Type) := Assoc α Int

namespace ZSet

variable {α : Type} [DecidableEq α] [LT α] [DecidableRel (α := α) (· < ·)]

/-- The order of a sorted set: by score, then by member. -/
def Before (a b : α × Int) : Prop := a.2 < b.2 ∨ (a.2 = b.2 ∧ ¬ b.1 < a.1)

instance : DecidableRel (Before (α := α)) := fun a b => by unfold Before; infer_instance

/-- The members in order, with their scores. -/
def sorted (z : ZSet α) : List (α × Int) := z.entries.insertionSort Before

/-- `ZRANGE key 0 (n - 1)`. -/
def range (z : ZSet α) (n : Nat) : List α := (z.sorted.take n).map Prod.fst

/-- `ZRANGEBYSCORE key -inf max LIMIT 0 n`. -/
def rangeByScore (z : ZSet α) (max : Int) (n : Nat) : List α :=
  ((z.sorted.filter (·.2 ≤ max)).take n).map Prod.fst

/-- `ZRANGEBYSCORE key min max WITHSCORES LIMIT 0 n`, with `none` for a `min` of `-inf`. -/
def rangeWithScores (z : ZSet α) (min : Option Int) (max : Int) (n : Nat) : List (α × Int) :=
  (z.sorted.filter (fun p => min.all (· ≤ p.2) && decide (p.2 ≤ max))).take n

/-- `ZADD key s₁ m₁ s₂ m₂ ...`, or one `ZADD` per member in turn. -/
def addAll (z : ZSet α) (ms : List (α × Int)) : ZSet α := ms.foldl (fun z p => z.insert p.1 p.2) z

/-- `ZADD key NX s₁ m₁ s₂ m₂ ...`. -/
def addAllNX (z : ZSet α) (ms : List (α × Int)) : ZSet α := ms.foldl (fun z p => z.insertNX p.1 p.2) z

omit [DecidableEq α] in
theorem mem_sorted {z : ZSet α} {p : α × Int} : p ∈ z.sorted ↔ p ∈ z.entries :=
  (List.perm_insertionSort Before z.entries).mem_iff

omit [DecidableEq α] in
theorem mem_range {z : ZSet α} {n : Nat} {m : α} (h : m ∈ z.range n) : m ∈ z.keys := by
  obtain ⟨p,hp,rfl⟩ := List.mem_map.mp h
  exact List.mem_map_of_mem (mem_sorted.mp (List.mem_of_mem_take hp))

theorem mem_rangeByScore {z : ZSet α} {max : Int} {n : Nat} {m : α} (h : m ∈ z.rangeByScore max n) :
    ∃ s, z.get? m = some s ∧ s ≤ max := by
  obtain ⟨p,hp,rfl⟩ := List.mem_map.mp h
  have hf := List.mem_of_mem_take hp
  obtain ⟨hp',hs⟩ := List.mem_filter.mp hf
  exact ⟨p.2,Assoc.get?_eq_some.mpr (mem_sorted.mp hp'),by simpa using hs⟩

omit [LT α] [DecidableRel (α := α) (· < ·)] in
theorem contains_addAll (z : ZSet α) (ms : List (α × Int)) (m : α) :
    (z.addAll ms).contains m = (decide (m ∈ ms.map Prod.fst) || z.contains m) := by
  induction ms generalizing z with
  | nil => simp [addAll]
  | cons p ms ih =>
    simp only [addAll, List.foldl_cons] at ih ⊢
    rw [ih, Assoc.contains_insert, Bool.eq_iff_iff]
    by_cases h : m = p.1 <;> simp [h]

omit [LT α] [DecidableRel (α := α) (· < ·)] in
theorem mem_keys_addAllNX {z : ZSet α} {ms : List (α × Int)} {m : α} :
    m ∈ (z.addAllNX ms).keys ↔ m ∈ ms.map Prod.fst ∨ m ∈ z.keys := by
  induction ms generalizing z with
  | nil => simp [addAllNX]
  | cons p ms ih =>
    simp only [addAllNX, List.foldl_cons] at ih ⊢
    rw [ih, Assoc.mem_keys_insertNX]
    simp only [List.map_cons, List.mem_cons]
    tauto

omit [LT α] [DecidableRel (α := α) (· < ·)] in
theorem contains_addAllNX (z : ZSet α) (ms : List (α × Int)) (m : α) :
    (z.addAllNX ms).contains m = (decide (m ∈ ms.map Prod.fst) || z.contains m) := by
  rw [Bool.eq_iff_iff, Assoc.contains_iff, mem_keys_addAllNX]
  simp

end ZSet

end Redis

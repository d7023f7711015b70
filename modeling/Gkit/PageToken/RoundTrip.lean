import Gkit.PageToken.Token

/-!
`GetIndex` on what `ForIndex` writes. A generator with the same salt opens the text, so what it
returns is decided by `readPlaintext` on `tokenText`: the own resource reads the index back
(once the time check passes, which counts from the second the token was written in), a
resource without the delimiter rejects every other resource's token, and a resource extended
by the delimiter and more text is read as the shorter one.
-/

namespace Gkit.PageToken

open Aes Strconv

/-! ### The bytes of the text -/

theorem colon_not_mem_itoa (i : Int) : ':'.toUInt8 ∉ Itoa i :=
  not_mem_itoa (by decide) (by decide)

theorem delim_not_mem_itoa (i : Int) : (0x1f : UInt8) ∉ Itoa i :=
  not_mem_itoa (by decide) (by decide)

section Layout

variable {tl : TimeLayout} (htl : tl.Lawful)
include htl

theorem colon_not_mem_format (now : Int) : ':'.toUInt8 ∉ tl.Format now := by
  intro h
  rcases htl.format_bytes now _ h with h | h | h <;> exact absurd h (by decide)

theorem delim_not_mem_format (now : Int) : (0x1f : UInt8) ∉ tl.Format now := by
  intro h
  rcases htl.format_bytes now _ h with h | h | h <;> exact absurd h (by decide)

end Layout

theorem splitOn_colon {date digits : List UInt8} (hd : ':'.toUInt8 ∉ date)
    (hi : ':'.toUInt8 ∉ digits) :
    (date ++ ':'.toUInt8 :: digits).splitOn ':'.toUInt8 = [date, digits] := by
  rw [List.splitOn_append_cons_self_of_not_mem hd,List.splitOn_eq_singleton hi]

theorem prefix_delim_eq {d : UInt8} {l₁ l₂ rest : List UInt8} (h₂ : d ∉ l₂) (hrest : d ∉ rest)
    (h : l₁ ++ [d] <+: l₂ ++ [d] ++ rest) : l₁ = l₂ := by
  induction l₂ generalizing l₁ with
  | nil =>
    cases l₁ with
    | nil => rfl
    | cons a l₁ =>
      rw [List.cons_append,List.nil_append,List.singleton_append,List.cons_prefix_cons] at h
      exact absurd (h.2.subset (List.mem_append_right l₁ (List.mem_singleton_self d))) hrest
  | cons b l₂ ih =>
    cases l₁ with
    | nil =>
      rw [List.nil_append,List.cons_append,List.cons_append,List.singleton_prefix_cons_iff] at h
      exact absurd (h ▸ List.mem_cons_self) h₂
    | cons a l₁ =>
      rw [List.cons_append,List.cons_append,List.cons_append,List.cons_prefix_cons] at h
      rw [ih (fun hd => h₂ (List.mem_cons_of_mem b hd)) h.2,h.1]

/-! ### `readPlaintext` -/

/-- A token written at `gen` and read at `now` passes the time check: no `timeLimitation`, or
`now` within it of the start of the second `gen` falls in. -/
def token.inTime (t : token) (gen now : Int) : Prop :=
  t.timeLimitation = 0 ∨ now ≤ gen - gen % 1000000000 + t.timeLimitation

instance (t : token) (gen now : Int) : Decidable (t.inTime gen now) :=
  inferInstanceAs (Decidable (_ ∨ _))

section Read

variable (tl : TimeLayout)

/-- Behind the own resource and the delimiter, a text with one ':' is read as its date and its
index. -/
theorem readPlaintext_prefix (t : token) (now : Int) {date digits : List UInt8}
    (hd : ':'.toUInt8 ∉ date) (hi : ':'.toUInt8 ∉ digits) :
    t.readPlaintext tl now (t.resourceIdentification ++ resourceDelim ++ (date ++ ':'.toUInt8 :: digits)) =
      (t.checkTime tl now date).bind fun _ => t.parseIndex digits := by
  have hne : t.resourceIdentification ++ resourceDelim ++ (date ++ ':'.toUInt8 :: digits) ≠ [] := by
    simp [resourceDelim]
  have hpre : (t.resourceIdentification ++ resourceDelim).isPrefixOf
      (t.resourceIdentification ++ resourceDelim ++ (date ++ ':'.toUInt8 :: digits)) = true :=
    List.isPrefixOf_iff_prefix.mpr (List.prefix_append _ _)
  rw [token.readPlaintext,if_neg hne]
  dsimp only
  rw [hpre,Bool.not_true,if_neg Bool.false_ne_true,List.drop_left,splitOn_colon hd hi]
  dsimp only
  cases t.checkTime tl now date <;> rfl

theorem readPlaintext_not_prefix (t : token) (now : Int) {text : List UInt8}
    (h : ¬(t.resourceIdentification ++ resourceDelim) <+: text) :
    t.readPlaintext tl now text = .error .ErrInvalidToken := by
  rw [token.readPlaintext]
  split
  · rfl
  · dsimp only
    rw [if_pos (by rw [Bool.not_eq_true',Bool.eq_false_iff]; exact mt List.isPrefixOf_iff_prefix.mp h)]

theorem checkTime_zero (t : token) (h : t.timeLimitation = 0) (now : Int) (date : List UInt8) :
    t.checkTime tl now date = .ok () := by
  rw [token.checkTime,if_neg (not_not.mpr h)]

/-- The check passes while `now` is within `timeLimitation` of the start of the second the
token was written in. -/
theorem checkTime_format {tl : TimeLayout} (htl : tl.Lawful) (hfix : tl.FixedOffset) (t : token)
    {gen now : Int} (h : t.inTime gen now) :
    t.checkTime tl now (tl.Format gen) = .ok () := by
  rcases h with h | h
  · exact checkTime_zero tl t h now _
  · rw [token.checkTime]
    split
    · rw [htl.parse_format hfix]
      dsimp only
      rw [if_neg (by omega)]
    · rfl

end Read

theorem parseIndex_itoa (t : token) {i : Int} (hi : -2 ^ 63 ≤ i ∧ i < 2 ^ 63)
    (hmax : t.maxIndex = defaultMaxIndex ∨ i ≤ t.maxIndex) : t.parseIndex (Itoa i) = .ok i := by
  rw [token.parseIndex,atoi_itoa hi]
  dsimp only
  rw [if_neg (by omega)]

/-! ### `GetIndex` of `ForIndex` -/

section Lawful

variable {c : Cipher} (hc : c.Lawful) {tl : TimeLayout} (htl : tl.Lawful)

theorem forIndex_eq (t : token) (now : Int) (nonce : Nonce) (i : Int) :
    t.ForIndex c tl now nonce i =
      c.EncodeToString (nonce.bytes ++ c.Seal t.salt nonce.bytes
        (tokenText t.resourceIdentification (tl.Format now) i)) := by
  rw [token.ForIndex,encryptGCM_of_valid _ _ t.salt_valid]

include hc

theorem forIndex_ne_nil (t : token) (now : Int) (nonce : Nonce) (i : Int) :
    t.ForIndex c tl now nonce i ≠ [] := by
  rw [forIndex_eq]
  exact encodeToString_seal_ne_nil hc _ _ _

/-- A generator with the same salt opens the token and reads its text. -/
theorem getIndex_forIndex_text (t t' : token) (hsalt : t'.salt = t.salt) (now now' : Int)
    (nonce : Nonce) (i : Int) :
    t'.GetIndex c tl now' (t.ForIndex c tl now nonce i) =
      t'.readPlaintext tl now' (tokenText t.resourceIdentification (tl.Format now) i) := by
  rw [token.GetIndex,if_neg (forIndex_ne_nil hc t now nonce i),forIndex_eq,hsalt,
    decryptGCM_seal hc _ _ t.salt_valid]

include htl

/-- `GetIndex` reads back the index `ForIndex` wrote, if `maxIndex` allows it and the token is
used within `timeLimitation` of the start of the second it was written in. -/
theorem getIndex_forIndex (hfix : tl.FixedOffset) (t : token) {now now' : Int} (nonce : Nonce) {i : Int}
    (hi : -2 ^ 63 ≤ i ∧ i < 2 ^ 63) (hmax : t.maxIndex = defaultMaxIndex ∨ i ≤ t.maxIndex)
    (htime : t.inTime now now') :
    t.GetIndex c tl now' (t.ForIndex c tl now nonce i) = .ok i := by
  rw [getIndex_forIndex_text hc t t rfl,tokenText,List.append_assoc _ (tl.Format now),
    readPlaintext_prefix tl t now' (colon_not_mem_format htl now) (colon_not_mem_itoa i),
    checkTime_format htl hfix t htime]
  exact parseIndex_itoa t hi hmax

/-- A resource without the delimiter rejects the tokens of every other resource under the
same salt. -/
theorem getIndex_rejects_other_resource (t t' : token) (hsalt : t'.salt = t.salt)
    (hdelim : (0x1f : UInt8) ∉ t.resourceIdentification)
    (hne : t'.resourceIdentification ≠ t.resourceIdentification) (now now' : Int)
    (nonce : Nonce) (i : Int) :
    t'.GetIndex c tl now' (t.ForIndex c tl now nonce i) = .error .ErrInvalidToken := by
  rw [getIndex_forIndex_text hc t t' hsalt]
  refine readPlaintext_not_prefix tl t' now' fun hp => hne ?_
  have hrest : (0x1f : UInt8) ∉ tl.Format now ++ ':'.toUInt8 :: Itoa i := by
    simp only [List.mem_append,List.mem_cons,not_or]
    exact ⟨delim_not_mem_format htl now,by decide,delim_not_mem_itoa i⟩
  rw [tokenText,List.append_assoc _ (tl.Format now)] at hp
  exact prefix_delim_eq hdelim hrest hp

/-- The code never rejects a resource that holds the delimiter: a generator reads the tokens of
its resource extended by the delimiter and any text without ':' as its own. -/
theorem getIndex_accepts_delimited_resource (t t' : token) (x : List UInt8)
    (hsalt : t'.salt = t.salt)
    (hres : t'.resourceIdentification = t.resourceIdentification ++ resourceDelim ++ x)
    (hx : ':'.toUInt8 ∉ x) (hlim : t.timeLimitation = 0) {i : Int}
    (hi : -2 ^ 63 ≤ i ∧ i < 2 ^ 63) (hmax : t.maxIndex = defaultMaxIndex ∨ i ≤ t.maxIndex)
    (now now' : Int) (nonce : Nonce) :
    t'.resourceIdentification ≠ t.resourceIdentification ∧
      t.GetIndex c tl now' (t'.ForIndex c tl now nonce i) = .ok i ∧
      ∀ (u u' : token), u'.salt = u.salt → (0x1f : UInt8) ∉ u.resourceIdentification →
        u'.resourceIdentification ≠ u.resourceIdentification → ∀ (now now' : Int) (nonce : Nonce) (i : Int),
          u'.GetIndex c tl now' (u.ForIndex c tl now nonce i) = .error .ErrInvalidToken := by
  refine ⟨?_,?_,getIndex_rejects_other_resource hc htl⟩
  · intro h
    have := congrArg List.length (hres.symm.trans h)
    simp [resourceDelim] at this
  · have hdate : ':'.toUInt8 ∉ x ++ resourceDelim ++ tl.Format now := by
      simp only [List.mem_append,not_or]
      exact ⟨⟨hx,by decide⟩,colon_not_mem_format htl now⟩
    have htext : tokenText t'.resourceIdentification (tl.Format now) i =
        t.resourceIdentification ++ resourceDelim ++
          (x ++ resourceDelim ++ tl.Format now ++ ':'.toUInt8 :: Itoa i) := by
      simp only [tokenText,hres,List.append_assoc]
    rw [getIndex_forIndex_text hc t' t hsalt.symm,htext,
      readPlaintext_prefix tl t now' hdate (colon_not_mem_itoa i),checkTime_zero tl t hlim]
    exact parseIndex_itoa t hi hmax

end Lawful

/-- The generator for "a" reads the token of the generator for "a\x1fb" under the default salt. -/
theorem getIndex_accepts_delimited_resource_a :
    (NewTokenGenerate (GoUtf8.encode "a\x1fb".toList) []).salt =
        (NewTokenGenerate (GoUtf8.encode "a".toList) []).salt ∧
      (NewTokenGenerate (GoUtf8.encode "a\x1fb".toList) []).resourceIdentification =
        (NewTokenGenerate (GoUtf8.encode "a".toList) []).resourceIdentification ++ resourceDelim ++
          GoUtf8.encode "b".toList ∧
      ':'.toUInt8 ∉ GoUtf8.encode "b".toList ∧
      (NewTokenGenerate (GoUtf8.encode "a".toList) []).timeLimitation = 0 ∧
      (-2 ^ 63 ≤ (7 : Int) ∧ (7 : Int) < 2 ^ 63) ∧
      ((NewTokenGenerate (GoUtf8.encode "a".toList) []).maxIndex = defaultMaxIndex ∨
        7 ≤ (NewTokenGenerate (GoUtf8.encode "a".toList) []).maxIndex) ∧
      (NewTokenGenerate (GoUtf8.encode "a\x1fb".toList) []).resourceIdentification ≠
        (NewTokenGenerate (GoUtf8.encode "a".toList) []).resourceIdentification ∧
      (NewTokenGenerate (GoUtf8.encode "a".toList) []).GetIndex Cipher.plain TimeLayout.unixSeconds 0
        ((NewTokenGenerate (GoUtf8.encode "a\x1fb".toList) []).ForIndex Cipher.plain
          TimeLayout.unixSeconds 0 ⟨List.replicate 12 0,rfl⟩ 7) = .ok 7 ∧
      ∀ (u u' : token), u'.salt = u.salt → (0x1f : UInt8) ∉ u.resourceIdentification →
        u'.resourceIdentification ≠ u.resourceIdentification → ∀ (now now' : Int) (nonce : Nonce) (i : Int),
          u'.GetIndex Cipher.plain TimeLayout.unixSeconds now' (u.ForIndex Cipher.plain TimeLayout.unixSeconds
            now nonce i) = .error .ErrInvalidToken := by
  have hres : (NewTokenGenerate (GoUtf8.encode "a\x1fb".toList) []).resourceIdentification =
      (NewTokenGenerate (GoUtf8.encode "a".toList) []).resourceIdentification ++ resourceDelim ++
        GoUtf8.encode "b".toList := by decide
  have hx : ':'.toUInt8 ∉ GoUtf8.encode "b".toList := by decide
  have hi : -2 ^ 63 ≤ (7 : Int) ∧ (7 : Int) < 2 ^ 63 := by decide
  exact ⟨rfl,hres,hx,rfl,hi,Or.inl rfl,
    getIndex_accepts_delimited_resource Cipher.plain_lawful TimeLayout.unixSeconds_lawful
      (NewTokenGenerate (GoUtf8.encode "a".toList) [])
      (NewTokenGenerate (GoUtf8.encode "a\x1fb".toList) []) (GoUtf8.encode "b".toList) rfl hres hx rfl hi (Or.inl rfl) 0 0 ⟨List.replicate 12 0,rfl⟩⟩

end Gkit.PageToken

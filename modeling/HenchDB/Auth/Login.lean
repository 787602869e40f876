import HenchDB.Auth.Persist

/-!
# Logins

A MySQL client proves its password with a token (`verify`), a PostgreSQL client
and a replica send it in clear (`verifyPassword`, `verifyReplPassword`).  The
last two accept the same passwords.  `verify` takes an empty token for an account
without a hash only, and the token of the empty password is empty: an account
whose hash is the digest of the empty password, as `CREATE USER` without a
password makes it, has no MySQL login.  A wrong password passes `verify` where
the digests let its token stand for that of another one (`Coincides`).
-/

namespace HenchDB.Auth

/-! ## Proofs -/

def xorCycle (data mask : Bytes) : Bytes :=
  data.mapIdx fun i b => b ^^^ mask[i % mask.length]?.getD 0

/-- The mask of a `caching_sha2_password` token. -/
def sha2Mask (d : Digests) (stored scramble : Bytes) : Bytes := d.sha256 (d.sha256 stored ++ scramble)

/-- The mask of a `mysql_native_password` token. -/
def nativeMask (d : Digests) (stored scramble : Bytes) : Bytes := d.sha1 (scramble ++ stored)

/-- `token.is_empty() || token == [0]`. -/
def emptyToken (token : Bytes) : Bool := token = [] || token = [0]

def verifySha2 (d : Digests) (stored scramble token : Bytes) : Bool :=
  if stored = [] then emptyToken token
  else if emptyToken token then false
  else if stored.length ≠ 32 || token.length ≠ 32 then false
  else xorCycle token (sha2Mask d stored scramble) = stored

def verifyNative (d : Digests) (stored scramble token : Bytes) : Bool :=
  if stored = [] then emptyToken token
  else if emptyToken token then false
  else if stored.length ≠ 20 || token.length ≠ 20 then false
  else d.sha1 (xorCycle token (nativeMask d stored scramble)) = stored

/-- `verify` and `verify_sha2_native_fallback`. -/
def verify (d : Digests) (v : Verifier) (plugin : String) (scramble token : Bytes) : Bool :=
  if v.hash = [] then emptyToken token
  else if emptyToken token then false
  else if plugin = pluginCachingSha2 then verifySha2 d v.hash scramble token
  else if plugin = pluginNative then
    if v.plugin ≠ pluginNative then false else verifyNative d v.hash scramble token
  else false

def verifyPassword (d : Digests) (v : Verifier) (password : Bytes) : Bool :=
  if v.hash = [] then password = []
  else if v.plugin = pluginCachingSha2 && v.hash.length = 32 then d.sha256 password = v.hash
  else if v.plugin = pluginNative && v.hash.length = 20 then d.sha1 (d.sha1 password) = v.hash
  else false

def verifyReplPassword (d : Digests) (disk : Disk) (file : Option AuthFile) (user password : String) :
    Bool :=
  match load disk file with
  | .error _ => false
  | .ok users =>
    match users[user]? with
    | none => false
    | some v =>
      if v.hash = [] then password = ""
      else if v.plugin = pluginCachingSha2 && v.hash.length = 32 then
        d.sha256 (utf8 password) = v.hash
      else if v.plugin = pluginNative && v.hash.length = 20 then
        d.sha1 (d.sha1 (utf8 password)) = v.hash
      else false

def clientToken (d : Digests) (plugin : String) (scramble password : Bytes) : Bytes :=
  if password = [] then []
  else if plugin = pluginNative then
    xorCycle (d.sha1 password) (nativeMask d (d.sha1 (d.sha1 password)) scramble)
  else xorCycle (d.sha256 password) (sha2Mask d (d.sha256 password) scramble)

/-- The accounts that are created: by the bootstrap, by `CREATE USER` and `ALTER USER`,
by `set_password`, each with any grants. -/
inductive Created (d : Digests) : Verifier → Prop where
  | bootstrap : Created d .empty
  | statement {password : String} {account : Option Verifier} {v : Verifier}
      (h : stage d password account = some v) : Created d v
  | setPassword {user plugin : String} {password : Bytes} {v : Verifier}
      (h : newVerifier d user password plugin = .ok v) : Created d v
  | grants {v : Verifier} (rules : List Query.GrantRule) (h : Created d v) :
      Created d { v with grants := rules }

/-- A password whose token passes for that of another one: its `SHA256` is not the
stored one but gives the same token, or its token unmasks to a preimage of the
stored `SHA1`. -/
def Coincides (d : Digests) (v : Verifier) (scramble password : Bytes) : Prop :=
  if v.plugin = pluginNative then
    d.sha1 (d.sha1 password) ≠ v.hash ∧
      d.sha1 (xorCycle (xorCycle (d.sha1 password) (nativeMask d (d.sha1 (d.sha1 password)) scramble))
        (nativeMask d v.hash scramble)) = v.hash
  else
    d.sha256 password ≠ v.hash ∧
      xorCycle (d.sha256 password) (sha2Mask d (d.sha256 password) scramble) =
        xorCycle v.hash (sha2Mask d v.hash scramble)

/-! ## Masks -/

variable {d : Digests} {v : Verifier}

@[simp] theorem length_xorCycle (data mask : Bytes) : (xorCycle data mask).length = data.length :=
  List.length_mapIdx

/-- The same mask twice is none. -/
@[simp] theorem xorCycle_xorCycle (data mask : Bytes) : xorCycle (xorCycle data mask) mask = data := by
  rw [xorCycle, xorCycle, List.mapIdx_mapIdx]
  refine (List.mapIdx_eq_iff.mpr fun i => ?_)
  cases data[i]? with
  | none => rfl
  | some b =>
    rw [Option.map_some, Function.comp, UInt8.xor_assoc, UInt8.xor_self, UInt8.xor_zero]

theorem xorCycle_eq_iff {a b mask : Bytes} : xorCycle a mask = b ↔ a = xorCycle b mask := by
  constructor
  · rintro rfl
    exact (xorCycle_xorCycle a mask).symm
  · rintro rfl
    exact xorCycle_xorCycle b mask

theorem emptyToken_eq_false {token : Bytes} (h : 1 < token.length) : emptyToken token = false := by
  cases token with
  | nil => cases h
  | cons b rest =>
    cases rest with
    | nil => exact absurd h (Nat.lt_irrefl 1)
    | cons c rest => simp [emptyToken]

/-! ## Created accounts -/

/-- A created account has no hash or the digest of a password. -/
theorem Created.hash (h : Created d v) :
    (v.plugin = pluginCachingSha2 ∧ (v.hash = [] ∨ v.hash.length = 32)) ∨
      (v.plugin = pluginNative ∧ v.hash.length = 20) := by
  induction h with
  | bootstrap => exact .inl ⟨rfl, .inl rfl⟩
  | @statement password account v h =>
    cases account <;> (obtain rfl := Option.some.inj h; exact .inl ⟨rfl, .inr (d.length_sha256 _)⟩)
  | @setPassword user plugin password v h =>
    rw [newVerifier] at h
    split at h
    · cases h
    · split at h
      · cases h
        exact .inl ⟨rfl, .inr (d.length_sha256 _)⟩
      · split at h
        · cases h
          exact .inr ⟨rfl, d.length_sha1 _⟩
        · cases h
  | grants rules _ ih => exact ih

/-- A replica's password is checked as one in clear. -/
theorem verifyReplPassword_eq {disk : Disk} {file : Option AuthFile} {users : Accounts} {user : String}
    (hload : load disk file = .ok users) (huser : users[user]? = some v) (password : String) :
    verifyReplPassword d disk file user password = verifyPassword d v (utf8 password) := by
  have hempty : utf8 password = [] ↔ password = "" := by
    rw [← String.toByteArray_inj, ByteArray.ext_iff, ← Array.toList_inj]
    rfl
  simp only [verifyReplPassword, hload, huser, verifyPassword, hempty]

/-- Without a hash only the empty password is right. -/
theorem verify_of_nil (hhash : v.hash = []) (plugin : String) (scramble password : Bytes) :
    verify d v plugin scramble (clientToken d plugin scramble password) =
      verifyPassword d v password := by
  rw [verify, if_pos hhash, verifyPassword, if_pos hhash, clientToken]
  by_cases hempty : password = []
  · simp [hempty, emptyToken]
  · rw [if_neg hempty, decide_eq_false hempty]
    split
    · exact emptyToken_eq_false (by rw [length_xorCycle, d.length_sha1]; decide)
    · exact emptyToken_eq_false (by rw [length_xorCycle, d.length_sha256]; decide)

theorem verify_of_ne (h : Created d v) (hhash : v.hash ≠ []) {password : Bytes}
    (hpassword : password ≠ []) (scramble : Bytes) :
    verify d v v.plugin scramble (clientToken d v.plugin scramble password) =
        verifyPassword d v password ↔ ¬ Coincides d v scramble password := by
  have hne : pluginNative ≠ pluginCachingSha2 := by decide
  rw [Bool.eq_iff_iff, verify, if_neg hhash, verifyPassword, if_neg hhash, clientToken, if_neg hpassword,
    Coincides]
  rcases h.hash with ⟨hplugin, hlength⟩ | ⟨hplugin, hlength⟩
  · have hlength := hlength.resolve_left hhash
    have htoken : emptyToken (xorCycle (d.sha256 password) (sha2Mask d (d.sha256 password) scramble)) =
        false := emptyToken_eq_false (by rw [length_xorCycle, d.length_sha256]; decide)
    rw [hplugin, if_neg hne.symm, if_neg hne.symm, htoken]
    simp only [verifySha2, hhash, htoken, hlength, d.length_sha256, length_xorCycle, xorCycle_eq_iff,
      decide_eq_true_eq, if_false, if_true, ne_eq, not_true, decide_false, Bool.or_self, decide_true,
      Bool.and_self, Bool.false_eq_true]
    constructor
    · intro hiff hbad
      exact hbad.1 (hiff.mp hbad.2)
    · intro hgood
      exact ⟨fun heq => by_contra fun hdiff => hgood ⟨hdiff, heq⟩, fun heq => by rw [heq, xorCycle_xorCycle]⟩
  · have htoken : emptyToken (xorCycle (d.sha1 password)
        (nativeMask d (d.sha1 (d.sha1 password)) scramble)) = false :=
      emptyToken_eq_false (by rw [length_xorCycle, d.length_sha1]; decide)
    rw [hplugin, if_pos rfl, if_pos rfl, htoken]
    simp only [verifyNative, hne, hhash, htoken, hlength, d.length_sha1, length_xorCycle,
      decide_eq_true_eq, if_false, if_true, ne_eq, not_true, decide_false, Bool.or_self, decide_true,
      Bool.and_self, Bool.false_eq_true, Bool.false_and]
    constructor
    · intro hiff hbad
      exact hbad.1 (hiff.mp hbad.2)
    · intro hgood
      refine ⟨fun heq => by_contra fun hdiff => hgood ⟨hdiff, heq⟩, fun heq => ?_⟩
      rw [heq, xorCycle_xorCycle, heq]

/-! ## All logins -/

/-- The three checks accept or reject a password together, unless the password is empty
and its digest the stored hash, or a wrong password coincides. -/
theorem logins_agree_iff {disk : Disk} {file : Option AuthFile} {users : Accounts} {user : String}
    (hload : load disk file = .ok users) (huser : users[user]? = some v) (h : Created d v)
    (scramble password : Bytes) :
    (verify d v v.plugin scramble (clientToken d v.plugin scramble password) =
        verifyPassword d v password ∧
      ∀ s : String, utf8 s = password →
        verifyReplPassword d disk file user s = verifyPassword d v password) ↔
    v.hash = [] ∨
      if password = [] then
        (if v.plugin = pluginNative then d.sha1 (d.sha1 []) else d.sha256 []) ≠ v.hash
      else ¬ Coincides d v scramble password := by
  have hrepl : ∀ s : String, utf8 s = password →
      verifyReplPassword d disk file user s = verifyPassword d v password := fun s hs =>
    hs ▸ verifyReplPassword_eq hload huser s
  rw [and_iff_left hrepl]
  by_cases hhash : v.hash = []
  · exact ⟨fun _ => .inl hhash, fun _ => verify_of_nil hhash _ _ _⟩
  · rw [or_iff_right hhash]
    split
    · next hempty =>
      subst hempty
      have hverify : verify d v v.plugin scramble (clientToken d v.plugin scramble []) = false := by
        rw [verify, if_neg hhash]
        rfl
      rw [hverify, eq_comm (a := false), verifyPassword, if_neg hhash]
      rcases h.hash with ⟨hplugin, hlength⟩ | ⟨hplugin, hlength⟩
      · have hne : pluginCachingSha2 ≠ pluginNative := by decide
        simp [hplugin, hlength.resolve_left hhash, hne]
      · have hne : pluginNative ≠ pluginCachingSha2 := by decide
        simp [hplugin, hlength, hne]
    · next hne => exact verify_of_ne h hhash hne scramble

/-- `SHA1` where a login of an account with the password `secret` asks for it: with the
right password, and with `guess`. -/
def loginSha1 : List (Bytes × Bytes) :=
  let scramble := (List.range 20).map fun i => UInt8.ofNat (i + 1)
  let stage1 : Bytes :=
    [229, 233, 250, 27, 163, 30, 205, 26, 232, 79, 117, 202, 170, 71, 79, 58, 102, 63, 5, 244]
  let stored : Bytes :=
    [20, 230, 85, 103, 171, 219, 81, 53, 208, 207, 217, 167, 11, 48, 50, 193, 121, 164, 158,
    231]
  let mask : Bytes :=
    [86, 194, 73, 190, 32, 255, 249, 22, 226, 94, 125, 31, 33, 92, 171, 173, 231, 146, 137, 219]
  let guess1 : Bytes :=
    [119, 54, 31, 202, 150, 91, 62, 83, 255, 129, 165, 212, 133, 37, 202, 138, 219, 138, 155,
    135]
  let guess2 : Bytes :=
    [133, 42, 154, 208, 27, 241, 197, 165, 152, 253, 134, 248, 118, 44, 47, 209, 26, 155, 75,
    20]
  let guessMask : Bytes :=
    [9, 90, 166, 51, 170, 134, 213, 114, 72, 5, 108, 184, 138, 141, 223, 48, 204, 248, 90, 8]
  let unmasked : Bytes :=
    [63, 142, 90, 63, 215, 161, 3, 34, 149, 189, 236, 104, 177, 106, 43, 68, 236, 139, 139, 222]
  [(utf8 "secret", stage1), (stage1, stored), (scramble ++ stored, mask), (utf8 "guess", guess1),
    (guess1, guess2), (scramble ++ guess2, guessMask), (xorCycle (xorCycle guess1 guessMask) mask,
      unmasked)]

def loginDigests : Digests where
  sha256 _ := List.replicate 32 0
  sha1 data := ((loginSha1.find? fun e => e.1 = data).map Prod.snd).getD (List.replicate 20 0)
  length_sha256 _ := rfl
  length_sha1 data := by
    have hlen : ∀ e ∈ loginSha1, e.2.length = 20 := by decide +kernel
    cases h : loginSha1.find? fun e => e.1 = data with
    | none => rfl
    | some e => exact hlen e (List.mem_of_find?_eq_some h)

def nativeSecret : Verifier := .newNative loginDigests (utf8 "secret")

/-- All listeners let in an account of the native plugin with its password, and with no other. -/
theorem logins_agree_iff_native :
    let scramble := (List.range 20).map fun i => UInt8.ofNat (i + 1)
    let login := fun password => verify loginDigests nativeSecret pluginNative scramble
      (clientToken loginDigests pluginNative scramble (utf8 password))
    (login "secret" = true ∧ verifyPassword loginDigests nativeSecret (utf8 "secret") = true) ∧
      login "guess" = verifyPassword loginDigests nativeSecret (utf8 "guess") ∧
        verifyPassword loginDigests nativeSecret (utf8 "guess") = false := by
  intro scramble login
  have hagree := @logins_agree_iff loginDigests nativeSecret .sound
    (some ⟨2, [("bob", nativeSecret)]⟩) _ "bob" rfl (by decide +kernel)
    (@Created.setPassword _ "bob" pluginNative (utf8 "secret") _ rfl) scramble
  have hsecret : login "secret" = verifyPassword loginDigests nativeSecret (utf8 "secret") :=
    ((hagree (utf8 "secret")).mpr (.inr (by
      rw [if_neg (by decide +kernel)]
      exact fun h => absurd h.1 (by decide +kernel)))).1
  have hguess : login "guess" = verifyPassword loginDigests nativeSecret (utf8 "guess") :=
    ((hagree (utf8 "guess")).mpr (.inr (by
      rw [if_neg (by decide +kernel)]
      exact fun h => absurd h.2 (by decide +kernel)))).1
  have hright : verifyPassword loginDigests nativeSecret (utf8 "secret") = true := by decide +kernel
  exact ⟨⟨hsecret.trans hright, hright⟩, hguess, by decide +kernel⟩

/-- A user without a password is let in by PostgreSQL and the replication, not by MySQL. -/
theorem empty_password_refused :
    ¬ ∀ (d : Digests) (disk : Disk) (file : Option AuthFile) (users : Accounts) (user : String)
        (v : Verifier), load disk file = .ok users → users[user]? = some v → Created d v →
        ∀ (scramble password : Bytes),
          verify d v v.plugin scramble (clientToken d v.plugin scramble password) =
            verifyPassword d v password := by
  intro hall
  have hbob := hall emptyDigests .sound (some ⟨2, [("bob", .newSha2 emptyDigests [])]⟩) _ "bob"
    (.newSha2 emptyDigests []) rfl
    (by decide +kernel) (@Created.statement _ "" none _ rfl) [] []
  exact absurd hbob (by decide +kernel)

end HenchDB.Auth

import HermitMoq.Json
import HermitMoq.Path
import HermitMoq.Runs
import Mathlib.Data.List.GetD

/-!
# Verification of Tokens

The model of `moq-asym-auth` (`lib.rs`): a JSON web token is verified with the key of the kind
that its header names, and keys are read from a document of JSON web keys. Base64url, the JSON
of headers, claims and documents, and the three signature schemes are parameters.
-/

namespace HermitMoq.AsymAuth

/-- A string of bytes. -/
abbrev Bytes := List UInt8

/-- `str::as_bytes`. -/
def asBytes (s : List Char) : Bytes := s.flatMap String.utf8EncodeChar

/-- `AuthError`. -/
inductive AuthError
  | decode
  | unsupportedAlg (alg : List Char)
  | noKeyForAlg (alg : List Char)
  | badSignature
  | expired
  deriving DecidableEq, Repr

/-- `Claims`. -/
structure Claims where
  root : List Char := []
  publish : List (List Char) := []
  subscribe : List (List Char) := []
  expires : Option ℤ := none
  deriving DecidableEq, Repr

/-- The algorithms that are implemented. -/
inductive Alg
  | hs256
  | eddsa
  | es256
  deriving DecidableEq, Repr

/-- The name of an algorithm in a header. -/
def Alg.name : Alg → List Char
  | .hs256 => ['H', 'S', '2', '5', '6']
  | .eddsa => ['E', 'd', 'D', 'S', 'A']
  | .es256 => ['E', 'S', '2', '5', '6']

/-- What the verifier takes from other crates. -/
structure Primitives where
  /-- `URL_SAFE_NO_PAD.decode`. -/
  b64 : Bytes → Option Bytes
  /-- `serde_json::from_slice::<Header>`, of which `alg` is the only field. -/
  header : Bytes → Option (List Char)
  /-- `serde_json::from_slice::<Claims>`. -/
  claims : Bytes → Option Claims
  /-- `serde_json::from_slice::<Value>`. -/
  json : Bytes → Option Json
  /-- `Hmac<Sha256>`. -/
  Mac : Type
  /-- `HmacSha256::new_from_slice`. -/
  macNew : Bytes → Option Mac
  /-- `update` with a message, then `verify_slice`. -/
  macVerify : Mac → Bytes → Bytes → Bool
  /-- `ed25519_dalek::VerifyingKey`. -/
  Ed25519Key : Type
  ed25519FromBytes : Bytes → Option Ed25519Key
  /-- `ed25519_dalek::Signature`. -/
  Ed25519Signature : Type
  ed25519Signature : Bytes → Option Ed25519Signature
  verifyStrict : Ed25519Key → Bytes → Ed25519Signature → Bool
  /-- `p256::ecdsa::VerifyingKey`. -/
  P256Key : Type
  p256FromSec1Bytes : Bytes → Option P256Key
  /-- `p256::ecdsa::Signature`. -/
  P256Signature : Type
  p256Signature : Bytes → Option P256Signature
  p256Verify : P256Key → Bytes → P256Signature → Bool

variable (P : Primitives)

/-- The keys of a kind. -/
def Primitives.Key : Alg → Type
  | .hs256 => Bytes
  | .eddsa => P.Ed25519Key
  | .es256 => P.P256Key

/-- `VerifyKeys`. -/
@[ext]
structure VerifyKeys where
  hs256 : Option Bytes := none
  ed25519 : Option P.Ed25519Key := none
  es256 : Option P.P256Key := none

variable {P} {keys keys' : VerifyKeys P}

/-- The key of a kind. -/
def VerifyKeys.key (keys : VerifyKeys P) : (alg : Alg) → Option (P.Key alg)
  | .hs256 => keys.hs256
  | .eddsa => keys.ed25519
  | .es256 => keys.es256

/-- Set the key of a kind. -/
def VerifyKeys.set (keys : VerifyKeys P) : (alg : Alg) → P.Key alg → VerifyKeys P
  | .hs256, key => { keys with hs256 := some key }
  | .eddsa, key => { keys with ed25519 := some key }
  | .es256, key => { keys with es256 := some key }

/-- `is_empty`. -/
def VerifyKeys.isEmpty (keys : VerifyKeys P) : Bool :=
  keys.hs256.isNone && keys.ed25519.isNone && keys.es256.isNone

/-! ### The code -/

/-- `map_err(|_| AuthError::Decode)` and `ok_or(AuthError::Decode)`. -/
def orDecode {α : Type} : Option α → Except AuthError α
  | some a => .ok a
  | none => .error .decode

namespace Primitives

/-- `b64`. -/
def b64Str (P : Primitives) (s : List Char) : Except AuthError Bytes :=
  orDecode (P.b64 (asBytes s))

/-- Check a signature with the key for the algorithm: the arms of the `match` of `verify`. -/
def checkSignature (keys : VerifyKeys P) (alg : List Char) (signingInput sig : Bytes) :
    Except AuthError Unit :=
  if alg = Alg.hs256.name then
    match keys.hs256 with
    | none => .error (.noKeyForAlg Alg.hs256.name)
    | some secret =>
      match P.macNew secret with
      | none => .error .badSignature
      | some mac => if P.macVerify mac signingInput sig then .ok () else .error .badSignature
  else if alg = Alg.eddsa.name then
    match keys.ed25519 with
    | none => .error (.noKeyForAlg Alg.eddsa.name)
    | some vk =>
      match P.ed25519Signature sig with
      | none => .error .decode
      | some signature =>
        if P.verifyStrict vk signingInput signature then .ok () else .error .badSignature
  else if alg = Alg.es256.name then
    match keys.es256 with
    | none => .error (.noKeyForAlg Alg.es256.name)
    | some vk =>
      match P.p256Signature sig with
      | none => .error .decode
      | some signature =>
        if P.p256Verify vk signingInput signature then .ok () else .error .badSignature
  else .error (.unsupportedAlg alg)

/-- `verify`. -/
def verify (P : Primitives) (token : List Char) (keys : VerifyKeys P) (now : ℤ) :
    Except AuthError Claims :=
  match token.splitOn '.' with
  | [h, p, s] =>
    if h = [] ∨ p = [] ∨ s = [] then .error .decode
    else do
      let alg ← orDecode (P.header (← P.b64Str h))
      let sig ← P.b64Str s
      checkSignature keys alg (asBytes (h ++ '.' :: p)) sig
      let claims ← orDecode (P.claims (← P.b64Str p))
      if claims.expires.any (· ≤ now) then .error .expired else .ok claims
  | _ => .error .decode

/-- `Value::as_str`. -/
def asStr : Json → Option (List Char)
  | .string s => some s
  | _ => none

/-- `Value::as_array`. -/
def asArray : Json → Option (List Json)
  | .array items => some items
  | _ => none

/-- `jwk_b64`. -/
def jwkB64 (P : Primitives) (jwk : Json) (field : List Char) : Except AuthError Bytes := do
  let s ← orDecode ((jwk.get field).bind asStr)
  P.b64Str s

/-- A field of a key that is empty unless it is a string. -/
def jwkStr (jwk : Json) (field : List Char) : List Char :=
  ((jwk.get field).bind asStr).getD []

/-- The key that an entry holds, by its kind: the arms of the `match` of `add_jwk`. -/
def jwkKey (P : Primitives) (jwk : Json) : (alg : Alg) → Except AuthError (P.Key alg)
  | .hs256 => P.jwkB64 jwk ['k']
  | .eddsa => do
    let x ← P.jwkB64 jwk ['x']
    if x.length ≠ 32 then .error .decode
    else orDecode (P.ed25519FromBytes x)
  | .es256 => do
    let x ← P.jwkB64 jwk ['x']
    let y ← P.jwkB64 jwk ['y']
    if x.length ≠ 32 ∨ y.length ≠ 32 then .error .decode
    else orDecode (P.p256FromSec1Bytes (4 :: x ++ y))

/-- The kind of an entry, from `kty` and `crv`: the patterns of the `match` of `add_jwk`. -/
def jwkAlg (jwk : Json) : Option Alg :=
  let kty := jwkStr jwk ['k', 't', 'y']
  let crv := jwkStr jwk ['c', 'r', 'v']
  if kty = ['o', 'c', 't'] then some .hs256
  else if kty = ['O', 'K', 'P'] ∧ crv = ['E', 'd', '2', '5', '5', '1', '9'] then some .eddsa
  else if kty = ['E', 'C'] ∧ crv = ['P', '-', '2', '5', '6'] then some .es256
  else none

/-- `add_jwk`. -/
def addJwk (keys : VerifyKeys P) (jwk : Json) : Except AuthError (VerifyKeys P) :=
  match jwkAlg jwk with
  | none => .error .decode
  | some alg => do
    let key ← P.jwkKey jwk alg
    .ok (keys.set alg key)

/-- The document: JSON, or else JSON in base64url, perhaps with a newline after it. -/
def document (P : Primitives) (raw : Bytes) : Except AuthError Json :=
  match P.json raw with
  | some doc => .ok doc
  | none => do
    let inner ← orDecode (P.b64 (if raw.getLast? = some 10 then raw.dropLast else raw))
    orDecode (P.json inner)

/-- The entries of a document: the list under `keys`, or the document itself. -/
def entries (doc : Json) : List Json :=
  ((doc.get ['k', 'e', 'y', 's']).bind asArray).getD [doc]

/-- `keys_from_jwk_bytes`. -/
def keysFromJwkBytes (P : Primitives) (raw : Bytes) : Except AuthError (VerifyKeys P) := do
  let doc ← P.document raw
  let keys ← (entries doc).foldlM addJwk {}
  if keys.isEmpty then .error .decode else .ok keys

end Primitives

/-! ### Results that are not errors -/

@[simp]
theorem orDecode_eq_ok {α : Type} {x : Option α} {a : α} : orDecode x = .ok a ↔ x = some a := by
  cases x <;> simp [orDecode]

theorem Alg.name_injective : Function.Injective Alg.name := by
  intro a b h
  cases a <;> cases b <;> first | rfl | cases h

/-! ### Tokens -/

/-- The segments of a token. -/
structure Segments (token h p s : List Char) : Prop where
  token : token = h ++ '.' :: (p ++ '.' :: s)
  header : h ≠ [] ∧ '.' ∉ h
  payload : p ≠ [] ∧ '.' ∉ p
  signature : s ≠ [] ∧ '.' ∉ s

/-- A token has three segments, none of them empty. -/
theorem segments_iff {token h p s : List Char} :
    Segments token h p s ↔ token.splitOn '.' = [h, p, s] ∧ ¬ (h = [] ∨ p = [] ∨ s = []) := by
  have hjoin : ['.'].intercalate [h, p, s] = h ++ '.' :: (p ++ '.' :: s) := by
    simp [List.intercalate]
  constructor
  · rintro ⟨rfl, hh, hp, hs⟩
    refine ⟨?_, by simp [hh.1, hp.1, hs.1]⟩
    rw [← hjoin]
    exact List.splitOn_intercalate '.' (by simp [hh.2, hp.2, hs.2]) (List.cons_ne_nil _ _)
  · rintro ⟨hsplit, hne⟩
    have hmem : ∀ l ∈ [h, p, s], '.' ∉ l := fun l hl => notMem_of_mem_splitOn (hsplit ▸ hl)
    have htoken : ['.'].intercalate (token.splitOn '.') = token := List.intercalate_splitOn '.'
    rw [hsplit, hjoin] at htoken
    simp only [List.mem_cons, List.not_mem_nil, or_false, forall_eq_or_imp, forall_eq,
      not_or] at hmem hne
    exact ⟨htoken.symm, ⟨hne.1, hmem.1⟩, ⟨hne.2.1, hmem.2.1⟩, ⟨hne.2.2, hmem.2.2⟩⟩

theorem Segments.unique {token h p s h' p' s' : List Char} (hseg : Segments token h p s)
    (hseg' : Segments token h' p' s') : h = h' ∧ p = p' ∧ s = s' := by
  have heq := (segments_iff.mp hseg).1.symm.trans (segments_iff.mp hseg').1
  simpa using heq

namespace Primitives

/-- The primitive of an algorithm accepts a signature. -/
def accepts (P : Primitives) : (alg : Alg) → P.Key alg → Bytes → Bytes → Bool
  | .hs256, secret, message, sig => (P.macNew secret).any (P.macVerify · message sig)
  | .eddsa, vk, message, sig => (P.ed25519Signature sig).any (P.verifyStrict vk message)
  | .es256, vk, message, sig => (P.p256Signature sig).any (P.p256Verify vk message)

/-- The arms of the `match`, told apart by the algorithm. -/
theorem checkSignature_name (keys : VerifyKeys P) (a : Alg) (message sig : Bytes) :
    checkSignature keys a.name message sig = .ok () ↔
      (keys.key a).any (P.accepts a · message sig) = true := by
  cases a with
  | hs256 =>
    change _ ↔ keys.hs256.any (fun secret => (P.macNew secret).any (P.macVerify · message sig))
    rw [checkSignature, if_pos rfl]
    cases keys.hs256 with
    | none => simp
    | some secret => cases hmac : P.macNew secret <;> simp [hmac]
  | eddsa =>
    change _ ↔ keys.ed25519.any fun vk =>
      (P.ed25519Signature sig).any (P.verifyStrict vk message)
    rw [checkSignature, if_neg (by decide), if_pos rfl]
    cases keys.ed25519 with
    | none => simp
    | some vk => cases P.ed25519Signature sig <;> simp
  | es256 =>
    change _ ↔ keys.es256.any (fun vk => (P.p256Signature sig).any (P.p256Verify vk message))
    rw [checkSignature, if_neg (by decide), if_neg (by decide), if_pos rfl]
    cases keys.es256 with
    | none => simp
    | some vk => cases P.p256Signature sig <;> simp

/-- A signature is accepted by the key of its algorithm, if there is one. -/
theorem checkSignature_eq_ok_iff {alg : List Char} {message sig : Bytes} :
    checkSignature keys alg message sig = .ok () ↔
      ∃ a key, alg = Alg.name a ∧ keys.key a = some key ∧ P.accepts a key message sig = true := by
  constructor
  · intro h
    have hname : ∃ a, alg = Alg.name a := by
      rw [checkSignature] at h
      split_ifs at h with h₁ h₂ h₃
      · exact ⟨_, h₁⟩
      · exact ⟨_, h₂⟩
      · exact ⟨_, h₃⟩
    obtain ⟨a, rfl⟩ := hname
    obtain ⟨key, hkey⟩ :=
      (Option.any_eq_true _ _).mp ((checkSignature_name keys a message sig).mp h)
    exact ⟨a, key, rfl, hkey⟩
  · rintro ⟨a, key, rfl, hkey⟩
    exact (checkSignature_name keys a message sig).mpr ((Option.any_eq_true _ _).mpr ⟨key, hkey⟩)

/-- The algorithm that the header of a token names. -/
def Names (P : Primitives) (token : List Char) (alg : Alg) : Prop :=
  ∃ h p s, Segments token h p s ∧ (P.b64 (asBytes h)).bind P.header = some alg.name

/-- A token is accepted with claims: it has three segments, the key for the algorithm that its
header names accepts the signature, and the claims have not expired. -/
def Accepts (P : Primitives) (keys : VerifyKeys P) (now : ℤ) (token : List Char)
    (claims : Claims) : Prop :=
  ∃ h p s alg key sig,
    Segments token h p s ∧
    (P.b64 (asBytes h)).bind P.header = some (Alg.name alg) ∧
    keys.key alg = some key ∧
    P.b64 (asBytes s) = some sig ∧
    P.accepts alg key (asBytes (h ++ '.' :: p)) sig = true ∧
    (P.b64 (asBytes p)).bind P.claims = some claims ∧
    ∀ exp ∈ claims.expires, now < exp

variable {token : List Char}

/-- A token that does not have three segments. -/
theorem verify_malformed (h : ∀ h p s, ¬ Segments token h p s) (keys : VerifyKeys P) (now : ℤ) :
    P.verify token keys now = .error .decode := by
  rw [verify]
  split
  · rename_i h' p s hsplit
    by_contra hne
    rw [if_pos (by_contra fun hempty => h h' p s (segments_iff.mpr ⟨hsplit, hempty⟩))] at hne
    exact hne rfl
  · rfl

/-- A token with three segments. -/
theorem verify_segments {h p s : List Char} (hseg : Segments token h p s) (keys : VerifyKeys P)
    (now : ℤ) :
    P.verify token keys now = (do
      let alg ← orDecode ((P.b64 (asBytes h)).bind P.header)
      let sig ← P.b64Str s
      checkSignature keys alg (asBytes (h ++ '.' :: p)) sig
      let claims ← orDecode ((P.b64 (asBytes p)).bind P.claims)
      if claims.expires.any (· ≤ now) then .error .expired else .ok claims) := by
  obtain ⟨hsplit, hne⟩ := segments_iff.mp hseg
  rw [verify, hsplit]
  simp only [if_neg hne, b64Str]
  cases P.b64 (asBytes h) <;> cases P.b64 (asBytes p) <;> rfl

/-- The tokens that are accepted. -/
theorem verify_eq_ok_iff {now : ℤ} {claims : Claims} :
    P.verify token keys now = .ok claims ↔ P.Accepts keys now token claims := by
  by_cases hseg : ∃ h p s, Segments token h p s
  · obtain ⟨h, p, s, hseg⟩ := hseg
    rw [verify_segments hseg]
    simp only [bind_eq_ok, orDecode_eq_ok, b64Str]
    have hexpires : ∀ c : Claims, (if c.expires.any (· ≤ now) then .error .expired else .ok c) =
        (.ok claims : Except AuthError Claims) ↔ c = claims ∧ ∀ exp ∈ c.expires, now < exp := by
      intro c
      cases c.expires with
      | none => simp
      | some exp =>
        by_cases hle : exp ≤ now
        · simp [hle]
        · simp [hle, Int.not_le.mp hle]
    constructor
    · rintro ⟨_, hname, sig, hsig, _, hcheck, c, hc, hexp⟩
      obtain ⟨alg, key, rfl, hkey, haccepts⟩ := checkSignature_eq_ok_iff.mp hcheck
      obtain ⟨rfl, hunexpired⟩ := (hexpires c).mp hexp
      exact ⟨h, p, s, alg, key, sig, hseg, hname, hkey, hsig, haccepts, hc, hunexpired⟩
    · rintro ⟨_, _, _, alg, key, sig, hseg', hname, hkey, hsig, haccepts, hc, hexp⟩
      obtain ⟨rfl, rfl, rfl⟩ := hseg.unique hseg'
      exact ⟨_, hname, sig, hsig, (), checkSignature_eq_ok_iff.mpr ⟨alg, key, rfl, hkey, haccepts⟩,
        claims, hc, (hexpires claims).mpr ⟨rfl, hexp⟩⟩
  · rw [verify_malformed fun h p s hs => hseg ⟨h, p, s, hs⟩]
    refine iff_of_false nofun ?_
    rintro ⟨h, p, s, -, -, -, hs, -⟩
    exact hseg ⟨h, p, s, hs⟩

/-- Keys of other kinds make no difference, whatever the result is. -/
theorem verify_congr {keys' : VerifyKeys P}
    (hagree : ∀ alg, P.Names token alg → keys.key alg = keys'.key alg) (now : ℤ) :
    P.verify token keys now = P.verify token keys' now := by
  by_cases hseg : ∃ h p s, Segments token h p s
  · obtain ⟨h, p, s, hseg⟩ := hseg
    rw [verify_segments hseg, verify_segments hseg]
    cases hheader : (P.b64 (asBytes h)).bind P.header with
    | none => rfl
    | some name =>
      have hcheck : ∀ sig, checkSignature keys name (asBytes (h ++ '.' :: p)) sig =
          checkSignature keys' name (asBytes (h ++ '.' :: p)) sig := by
        intro sig
        rw [checkSignature, checkSignature]
        split_ifs with h₁ h₂ h₃
        · rw [show keys.hs256 = keys'.hs256 from
            hagree .hs256 ⟨h, p, s, hseg, hheader.trans (by rw [h₁])⟩]
        · rw [show keys.ed25519 = keys'.ed25519 from
            hagree .eddsa ⟨h, p, s, hseg, hheader.trans (by rw [h₂])⟩]
        · rw [show keys.es256 = keys'.es256 from
            hagree .es256 ⟨h, p, s, hseg, hheader.trans (by rw [h₃])⟩]
        · rfl
      simp only [orDecode, bind, Except.bind, hcheck]
  · rw [verify_malformed fun h p s hs => hseg ⟨h, p, s, hs⟩,
      verify_malformed fun h p s hs => hseg ⟨h, p, s, hs⟩]

end Primitives

/-! ### Keys -/

namespace VerifyKeys

theorem ext_key (h : ∀ alg, keys.key alg = keys'.key alg) : keys = keys' :=
  VerifyKeys.ext (h .hs256) (h .eddsa) (h .es256)

theorem key_set_self (keys : VerifyKeys P) (alg : Alg) (key : P.Key alg) :
    (keys.set alg key).key alg = some key := by
  cases alg <;> rfl

theorem key_set_ne (keys : VerifyKeys P) {alg alg' : Alg} (h : alg' ≠ alg) (key : P.Key alg) :
    (keys.set alg key).key alg' = keys.key alg' := by
  cases alg <;> cases alg' <;> first | rfl | exact absurd rfl h

/-- There are keys if and only if some algorithm has one. -/
theorem isEmpty_eq_false_iff : keys.isEmpty = false ↔ ∃ alg, (keys.key alg).isSome := by
  constructor
  · intro h
    rw [isEmpty, Bool.and_eq_false_iff, Bool.and_eq_false_iff] at h
    simp only [Option.isNone_eq_false_iff] at h
    rcases h with (h | h) | h
    · exact ⟨.hs256, h⟩
    · exact ⟨.eddsa, h⟩
    · exact ⟨.es256, h⟩
  · rintro ⟨alg, h⟩
    rw [isEmpty, Bool.and_eq_false_iff, Bool.and_eq_false_iff]
    simp only [Option.isNone_eq_false_iff]
    cases alg with
    | hs256 => exact .inl (.inl h)
    | eddsa => exact .inl (.inr h)
    | es256 => exact .inr h

end VerifyKeys

namespace Primitives

/-- The key of a kind that an entry holds. -/
def keyOf (P : Primitives) (alg : Alg) (jwk : Json) : Option (P.Key alg) :=
  if jwkAlg jwk = some alg then (P.jwkKey jwk alg).toOption else none

/-- An entry of a known kind that is not malformed. -/
def Readable (P : Primitives) (jwk : Json) : Prop := ∃ alg, (P.keyOf alg jwk).isSome

/-- An entry sets the key of its kind. -/
theorem addJwk_eq_ok_iff {jwk : Json} :
    addJwk keys jwk = .ok keys' ↔
      P.Readable jwk ∧ ∀ alg, keys'.key alg = (P.keyOf alg jwk).or (keys.key alg) := by
  rw [addJwk]
  cases halg : jwkAlg jwk with
  | none => simp [Readable, keyOf, halg]
  | some a =>
    have hother : ∀ alg ≠ a, P.keyOf alg jwk = none := fun alg hne => by
      rw [keyOf, halg, if_neg (fun h => hne (Option.some.inj h).symm)]
    have hown : P.keyOf a jwk = (P.jwkKey jwk a).toOption := by rw [keyOf, halg, if_pos rfl]
    simp only
    cases hkey : P.jwkKey jwk a with
    | error e =>
      rw [hkey] at hown
      refine iff_of_false nofun ?_
      rintro ⟨⟨alg, hsome⟩, -⟩
      by_cases heq : alg = a
      · rw [heq, hown] at hsome
        cases hsome
      · rw [hother alg heq] at hsome
        cases hsome
    | ok key =>
      rw [hkey] at hown
      have hset : ∀ alg, (keys.set a key).key alg =
          (P.keyOf alg jwk).or (keys.key alg) := fun alg => by
        by_cases heq : alg = a
        · rw [heq, hown, VerifyKeys.key_set_self]
          rfl
        · rw [hother alg heq, VerifyKeys.key_set_ne keys heq, Option.none_or]
      constructor
      · intro h
        cases h
        exact ⟨⟨a, by rw [hown]; rfl⟩, hset⟩
      · rintro ⟨-, h⟩
        exact congrArg Except.ok (VerifyKeys.ext_key fun alg => (hset alg).trans (h alg).symm)

/-- A key that can be read is added. -/
theorem Readable.addJwk {jwk : Json} (h : P.Readable jwk) (keys : VerifyKeys P) :
    ∃ keys', Primitives.addJwk keys jwk = .ok keys' := by
  obtain ⟨alg, hsome⟩ := h
  rw [keyOf] at hsome
  by_cases halg : jwkAlg jwk = some alg
  case neg =>
    rw [if_neg halg] at hsome
    cases hsome
  rw [if_pos halg] at hsome
  rw [Primitives.addJwk, halg]
  simp only
  cases hkey : P.jwkKey jwk alg with
  | error e =>
    rw [hkey] at hsome
    cases hsome
  | ok key => exact ⟨_, rfl⟩

theorem getLast?_filterMap_cons {α γ : Type} (f : α → Option γ) (a : α) (l : List α) :
    ((a :: l).filterMap f).getLast? = ((l.filterMap f).getLast?).or (f a) := by
  cases h : f a with
  | none => rw [List.filterMap_cons_none h, Option.or_none]
  | some b =>
    rw [List.filterMap_cons_some h, List.getLast?_cons]
    cases (l.filterMap f).getLast? <;> rfl

/-- The last entry of a kind sets its key. -/
theorem foldlM_addJwk_eq_ok_iff {entries : List Json} :
    entries.foldlM addJwk keys = .ok keys' ↔
      (∀ jwk ∈ entries, P.Readable jwk) ∧
        ∀ alg, keys'.key alg = ((entries.filterMap (P.keyOf alg)).getLast?).or (keys.key alg) := by
  induction entries generalizing keys with
  | nil =>
    constructor
    · intro h
      cases h
      exact ⟨nofun, fun alg => rfl⟩
    · rintro ⟨-, h⟩
      exact congrArg Except.ok (VerifyKeys.ext_key fun alg => (h alg).symm)
  | cons jwk entries ih =>
    simp only [List.foldlM_cons, bind_eq_ok, ih, addJwk_eq_ok_iff, getLast?_filterMap_cons,
      List.forall_mem_cons, Option.or_assoc]
    constructor
    · rintro ⟨k, ⟨hjwk, hk⟩, hentries, h⟩
      exact ⟨⟨hjwk, hentries⟩, fun alg => by rw [h, hk]⟩
    · rintro ⟨⟨hjwk, hentries⟩, h⟩
      obtain ⟨k, hk⟩ := hjwk.addJwk keys
      have hkey := (addJwk_eq_ok_iff.mp hk).2
      exact ⟨k, ⟨hjwk, hkey⟩, hentries, fun alg => by rw [h, hkey]⟩

/-- The keys that are read from a document: there are entries, all of them are readable, and the
key of each kind is that of the last entry of the kind. -/
theorem keysFromJwkBytes_eq_ok_iff {raw : Bytes} {keys : VerifyKeys P} :
    P.keysFromJwkBytes raw = .ok keys ↔
      ∃ doc, P.document raw = .ok doc ∧ entries doc ≠ [] ∧
        (∀ jwk ∈ entries doc, P.Readable jwk) ∧
        ∀ alg, keys.key alg = ((entries doc).filterMap (P.keyOf alg)).getLast? := by
  have hempty : ∀ alg, (({} : VerifyKeys P).key alg) = none := fun alg => by cases alg <;> rfl
  simp only [keysFromJwkBytes, bind_eq_ok, foldlM_addJwk_eq_ok_iff, hempty, Option.or_none]
  constructor
  · rintro ⟨doc, hdoc, k, ⟨hread, hk⟩, hok⟩
    by_cases hne : k.isEmpty = true
    · rw [if_pos hne] at hok
      cases hok
    · rw [if_neg hne] at hok
      cases hok
      refine ⟨doc, hdoc, fun hnil => ?_, hread, hk⟩
      obtain ⟨alg, hsome⟩ := VerifyKeys.isEmpty_eq_false_iff.mp (Bool.not_eq_true _ ▸ hne)
      rw [hk, hnil] at hsome
      cases hsome
  · rintro ⟨doc, hdoc, hnonempty, hread, hk⟩
    refine ⟨doc, hdoc, keys, ⟨hread, hk⟩, ?_⟩
    rw [if_neg]
    rw [Bool.not_eq_true, VerifyKeys.isEmpty_eq_false_iff]
    -- the last entry sets a key
    obtain ⟨jwk, hjwk⟩ := List.exists_mem_of_ne_nil _ hnonempty
    obtain ⟨alg, hsome⟩ := hread jwk hjwk
    obtain ⟨_, hkey⟩ := Option.isSome_iff_exists.mp hsome
    refine ⟨alg, ?_⟩
    rw [hk, List.getLast?_isSome]
    exact List.ne_nil_of_mem (List.mem_filterMap.mpr ⟨jwk, hjwk, hkey⟩)

/-- **Verification is exact.** A token is verified exactly if it has three segments and the key for
the algorithm that its header names accepts its signature; keys of other kinds make no difference to
the result; and the keys of a document are those of the last entry of each kind, if all entries are
readable and there is one. -/
theorem verification_exact (P : Primitives) :
    (∀ token keys now claims,
      P.verify token keys now = .ok claims ↔ P.Accepts keys now token claims) ∧
    (∀ token keys keys' now, (∀ alg, P.Names token alg → keys.key alg = keys'.key alg) →
      P.verify token keys now = P.verify token keys' now) ∧
    ∀ raw keys, P.keysFromJwkBytes raw = .ok keys ↔
      ∃ doc, P.document raw = .ok doc ∧ entries doc ≠ [] ∧
        (∀ jwk ∈ entries doc, P.Readable jwk) ∧
        ∀ alg, keys.key alg = ((entries doc).filterMap (P.keyOf alg)).getLast? :=
  ⟨fun _ _ _ _ => verify_eq_ok_iff, fun _ _ _ now hagree => verify_congr hagree now,
    fun _ _ => keysFromJwkBytes_eq_ok_iff⟩

/-- Primitives under which bytes stand for themselves, and a secret is its own signature. -/
def plain : Primitives where
  b64 bytes := some bytes
  header bytes := if bytes = asBytes ['h'] then some Alg.hs256.name else none
  claims _ := some { expires := some 10 }
  json _ := none
  Mac := Bytes
  macNew secret := some secret
  macVerify secret _ sig := decide (sig = secret)
  Ed25519Key := Unit
  ed25519FromBytes _ := some ()
  Ed25519Signature := Unit
  ed25519Signature _ := some ()
  verifyStrict _ _ _ := true
  P256Key := Unit
  p256FromSec1Bytes _ := some ()
  P256Signature := Unit
  p256Signature _ := some ()
  p256Verify _ _ _ := true

/-- A token is accepted, and no public key makes up for the secret. -/
theorem verification_exact_plain :
    plain.Accepts { hs256 := some (asBytes ['s']) } 9 ['h', '.', 'p', '.', 's']
        { expires := some 10 } ∧
      plain.verify ['h', '.', 'p', '.', 's'] { ed25519 := some () } 9 =
        plain.verify ['h', '.', 'p', '.', 's'] {} 9 := by
  refine ⟨((verification_exact plain).1 _ _ _ _).mp rfl,
    (verification_exact plain).2.1 _ _ _ _ fun alg hnames => ?_⟩
  obtain ⟨_, _, _, _, hheader⟩ := hnames
  have halg : alg = .hs256 := by
    apply Alg.name_injective
    rw [plain] at hheader
    simp only [Option.bind_some] at hheader
    split_ifs at hheader
    exact (Option.some.inj hheader).symm
  rw [halg]
  rfl

end Primitives

end HermitMoq.AsymAuth

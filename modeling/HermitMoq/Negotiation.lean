import HermitMoq.VarInt

/-!
# Choosing a Version

How `Client::connect` and `Server::accept` choose a version by SETUP messages. The ALPN of the
session limits what they may choose: the one of a draft up to 16 to that draft, and `moq-lite`, or
none at all, to the versions that have no ALPN of their own. The client sends the codes of those it
supports, the server answers with the code of the first that it knows and supports, and the client
looks that one up.
-/

namespace HermitMoq

open List

namespace Version

/-- `Version::code`. -/
def code : Version → ℕ
  | .lite .lite01 => 0xff0dad01
  | .lite .lite02 => 0xff0dad02
  | .lite .lite03 => 0xff0dad03
  | .lite .lite04 => 0xff0dad04
  | .lite .lite05Wip => 0xff0dad05
  | .ietf .draft14 => 0xff00000e
  | .ietf .draft15 => 0xff00000f
  | .ietf .draft16 => 0xff000010
  | .ietf .draft17 => 0xff000011
  | .ietf .draft18 => 0xff000012

/-- `Version::from_code`. -/
def fromCode : ℕ → Option Version
  | 0xff0dad01 => some (.lite .lite01)
  | 0xff0dad02 => some (.lite .lite02)
  | 0xff0dad03 => some (.lite .lite03)
  | 0xff0dad04 => some (.lite .lite04)
  | 0xff0dad05 => some (.lite .lite05Wip)
  | 0xff00000e => some (.ietf .draft14)
  | 0xff00000f => some (.ietf .draft15)
  | 0xff000010 => some (.ietf .draft16)
  | 0xff000011 => some (.ietf .draft17)
  | 0xff000012 => some (.ietf .draft18)
  | _ => none

/-- The code of a version is read back. -/
theorem fromCode_code (v : Version) : fromCode v.code = some v := by
  rcases v with v | v <;> cases v <;> rfl

/-! ### What an end supports -/

/-- `NEGOTIATED`. -/
def negotiated : List Version := [.lite .lite02, .lite .lite01, .ietf .draft14]

/-- The ALPNs of sessions that start with SETUP messages; `lite` also stands for none. -/
inductive Alpn
  | lite
  | draft14
  | draft15
  | draft16
  deriving DecidableEq, Repr

/-- `Versions::filter`. -/
def filter (versions others : List Version) : Option (List Version) :=
  match versions.filter (· ∈ others) with
  | [] => none
  | filtered => some filtered

/-- `Versions::select`. -/
def select (versions : List Version) (v : Version) : Option Version :=
  if v ∈ versions then some v else none

/-- The versions that an end with these versions supports under an ALPN, the arms of the `match` on
the protocol; without any it gives up. -/
def supported (alpn : Alpn) (versions : List Version) : Option (List Version) :=
  match alpn with
  | .lite => filter versions negotiated
  | .draft14 => (select versions (.ietf .draft14)).map ([·])
  | .draft15 => (select versions (.ietf .draft15)).map ([·])
  | .draft16 => (select versions (.ietf .draft16)).map ([·])

/-- The versions that an ALPN admits. -/
def Alpn.admits : Alpn → List Version
  | lite => negotiated
  | draft14 => [.ietf .draft14]
  | draft15 => [.ietf .draft15]
  | draft16 => [.ietf .draft16]

/-! ### The exchange -/

/-- The choice of `Server::accept`, which supports these versions, by the codes it receives. -/
def accept (supported : List Version) (codes : List ℕ) : Option Version :=
  (codes.filterMap fromCode).find? (· ∈ supported)

/-- The choice of `Client::connect`, which supports these versions, by the code it receives. -/
def connect (supported : List Version) (code : ℕ) : Option Version :=
  supported.find? (·.code = code)

/-- What a client and a server end up with that have these versions. If one of them gives up, the
other one waits in vain for its message. -/
def negotiate (alpn : Alpn) (client server : List Version) : Option Version × Option Version :=
  match supported alpn client, supported alpn server with
  | some client, some server =>
    let accepted := accept server (client.map code)
    (accepted >>= fun v => connect client v.code, accepted)
  | _, _ => (none, none)

variable (alpn : Alpn) {versions : List Version} {v : Version}

/-- What is found in the list of a selected version: that version, if the end has it. -/
theorem find?_select (v : Version) (p : Version → Bool) :
    (((select versions v).map ([·])).getD []).find? p =
      versions.find? fun w => decide (w ∈ [v]) && p w := by
  symm
  rw [select]
  split_ifs with hv
  · cases hp : p v with
    | false =>
      have hnone : ∀ w ∈ versions, ¬ (decide (w ∈ [v]) && p w) := by
        rintro w - hwv
        obtain ⟨rfl, hpw⟩ : w = v ∧ p w := by simpa using hwv
        exact absurd hpw (by simp [hp])
      simpa [hp] using find?_eq_none.mpr hnone
    | true =>
      have hsome : (versions.find? fun w => decide (w ∈ [v]) && p w).isSome :=
        find?_isSome.mpr ⟨v, hv, by simp [hp]⟩
      obtain ⟨w, hw⟩ := Option.isSome_iff_exists.mp hsome
      obtain ⟨rfl, -⟩ : w = v ∧ p w := by simpa using find?_some hw
      simpa [hp] using hw
  · have hnone : ∀ w ∈ versions, ¬ (decide (w ∈ [v]) && p w) := by
      intro w hw hwv
      obtain ⟨rfl, -⟩ : w = v ∧ p w := by simpa using hwv
      exact hv hw
    simpa using find?_eq_none.mpr hnone

/-- What is found among the versions that an end supports: the first one of those it has that the
ALPN admits. -/
theorem find?_supported (p : Version → Bool) :
    ((supported alpn versions).getD []).find? p =
      versions.find? fun v => decide (v ∈ alpn.admits) && p v := by
  cases alpn with
  | lite =>
    have hfilter : (supported .lite versions).getD [] = versions.filter (· ∈ negotiated) := by
      rw [supported, filter]
      split <;> simp_all
    rw [hfilter, find?_filter]
    congr 1
    funext v
    rw [Bool.decide_and, Bool.decide_eq_true, Bool.decide_eq_true]
    rfl
  | draft14 => exact find?_select _ p
  | draft15 => exact find?_select _ p
  | draft16 => exact find?_select _ p

/-- The supported versions are those of the end that the ALPN admits. -/
theorem mem_supported :
    v ∈ (supported alpn versions).getD [] ↔ v ∈ alpn.admits ∧ v ∈ versions := by
  have hfind : (((supported alpn versions).getD []).find? (· == v)).isSome ↔
      (versions.find? fun w => decide (w ∈ alpn.admits) && w == v).isSome := by
    rw [find?_supported]
  simpa [find?_isSome, and_comm] using hfind

/-- The client finds the version whose code the server sends, if it supports that one. -/
theorem connect_code (hv : v ∈ versions) : connect versions v.code = some v := by
  have hsome : (connect versions v.code).isSome := find?_isSome.mpr ⟨v, hv, by simp⟩
  obtain ⟨w, hw⟩ := Option.isSome_iff_exists.mp hsome
  have hcode : w.code = v.code := by simpa using find?_some hw
  have hvw : some w = some v := by rw [← fromCode_code, hcode, fromCode_code]
  exact hw.trans hvw

/-- The server chooses the first of the versions that the client has sent it. -/
theorem accept_codes (client server : List Version) :
    accept server (client.map code) = client.find? (· ∈ server) := by
  have hcodes : (client.map code).filterMap fromCode = client := by
    simp [filterMap_map, fromCode_code]
  rw [accept, hcodes]

/-- **Both ends get the same version.** It is the first one of the client's that the ALPN admits
and that the server has too, and where there is none, both of them fail. -/
theorem negotiate_eq (alpn : Alpn) (client server : List Version) :
    negotiate alpn client server =
      (client.find? fun v => v ∈ alpn.admits ∧ v ∈ server,
        client.find? fun v => v ∈ alpn.admits ∧ v ∈ server) := by
  have hfound : (client.find? fun v => v ∈ alpn.admits ∧ v ∈ server) =
      ((supported alpn client).getD []).find? (· ∈ (supported alpn server).getD []) := by
    rw [find?_supported]
    congr 1
    funext v
    rw [← Bool.decide_and]
    exact decide_eq_decide.mpr (by rw [mem_supported]; tauto)
  rw [negotiate, hfound]
  cases supported alpn client with
  | none => rfl
  | some client =>
    cases supported alpn server with
    | none =>
      have hnone : client.find? (· ∈ ([] : List Version)) = none := by simp
      simp only [Option.getD_some, Option.getD_none, hnone]
    | some server =>
      simp only [accept_codes, Option.getD_some]
      cases hv : client.find? (· ∈ server) with
      | none => rfl
      | some v => simp [connect_code (mem_of_find?_eq_some hv)]

end Version

end HermitMoq

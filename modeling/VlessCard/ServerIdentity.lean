/-
`Server.id`: what two servers need to be one.

The id is two hash codes in hexadecimal. The first is of the joined fields with the
address in lower case, the second of the address as it is written, the secret and
the port. `String.hashCode` multiplies by 31, which is odd, so nothing that follows
an address makes up for a difference in its hash code: two spellings of one address
give one id exactly when their hash codes agree. All lists of servers are told apart
by id, so the same condition decides whether a list may hold both.
-/
import VlessCard.LinkImport
import VlessCard.StoreUpdates

set_option autoImplicit false

namespace VlessCard

/-! ## Hexadecimal and hash codes

The hash is that of the JVM, a fold modulo 2³² over UTF-16 units. Appending one text behind two
others keeps their hashes apart, as the multiplier is odd. -/

theorem digitChar_inj {m n : ℕ} (hm : m < 16) (hn : n < 16) (h : m.digitChar = n.digitChar) : m = n := by
  have hall : ∀ a < 16, ∀ b < 16, a.digitChar = b.digitChar → a = b := by decide
  exact hall m hm n hn h

theorem toDigits_inj {m n : ℕ} (h : Nat.toDigits 16 m = Nat.toDigits 16 n) : m = n := by
  induction m using Nat.strong_induction_on generalizing n with
  | h m ih =>
    rw [Nat.toDigits_eq_if (by decide), Nat.toDigits_eq_if (n := n) (by decide)] at h
    by_cases hm : m < 16
    · by_cases hn : n < 16
      · rw [if_pos hm, if_pos hn, List.cons.injEq] at h
        exact digitChar_inj hm hn h.1
      · rw [if_pos hm, if_neg hn] at h
        have hlen := congrArg List.length h
        rw [List.length_append, List.length_singleton, List.length_singleton] at hlen
        have hpos : 0 < (Nat.toDigits 16 (n / 16)).length := Nat.length_toDigits_pos
        omega
    · by_cases hn : n < 16
      · rw [if_neg hm, if_pos hn] at h
        have hlen := congrArg List.length h
        rw [List.length_append, List.length_singleton, List.length_singleton] at hlen
        have hpos : 0 < (Nat.toDigits 16 (m / 16)).length := Nat.length_toDigits_pos
        omega
      · rw [if_neg hm, if_neg hn] at h
        obtain ⟨hinit, hlast⟩ := List.append_inj' h rfl
        have hquot : m / 16 = n / 16 := ih (m / 16) (by omega) hinit
        have hrem : m % 16 = n % 16 := by
          apply digitChar_inj (by omega) (by omega)
          exact (List.cons.inj hlast).1
        omega

theorem toHexString_inj {m n : ℕ} (h : toHexString m = toHexString n) : m = n :=
  toDigits_inj (String.ofList_inj.mp h)

/-- One step of `hashCode`. -/
def hashStep (h u : ℕ) : ℕ := (31 * h + u) % 2 ^ 32

/-- `hashCode` is a fold over the UTF-16 units. -/
theorem hashCode_eq (s : String) : hashCode s = (utf16 s).foldl hashStep 0 := rfl

theorem hashStep_lt (h u : ℕ) : hashStep h u < 2 ^ 32 := Nat.mod_lt _ (by decide)

theorem foldl_hashStep_lt {l : List ℕ} {h : ℕ} (hh : h < 2 ^ 32) : l.foldl hashStep h < 2 ^ 32 := by
  induction l generalizing h with
  | nil => exact hh
  | cons u l ih => exact ih (hashStep_lt h u)

/-- What is hashed behind two texts keeps their hash codes apart. -/
theorem foldl_hashStep_inj {l : List ℕ} {h h' : ℕ} (hh : h < 2 ^ 32) (hh' : h' < 2 ^ 32) :
    l.foldl hashStep h = l.foldl hashStep h' ↔ h = h' := by
  induction l generalizing h h' with
  | nil => exact Iff.rfl
  | cons u l ih =>
    rw [List.foldl_cons, List.foldl_cons, ih (hashStep_lt h u) (hashStep_lt h' u)]
    constructor
    · intro heq
      -- 31 is odd, so it divides out modulo `2 ^ 32`
      rw [hashStep, hashStep] at heq
      omega
    · intro heq
      rw [heq]

/-- What is put behind two texts does not tell them apart. -/
theorem hashCode_append_inj (a b t : String) : hashCode (a ++ t) = hashCode (b ++ t) ↔ hashCode a = hashCode b := by
  have happ : ∀ x : String, hashCode (x ++ t) = (utf16 t).foldl hashStep (hashCode x) := by
    intro x
    rw [hashCode_eq, hashCode_eq, utf16, String.toList_append, List.flatMap_append, List.foldl_append]
    rfl
  rw [happ, happ]
  exact foldl_hashStep_inj (foldl_hashStep_lt (by decide)) (foldl_hashStep_lt (by decide))

/-! ## Spellings of one server

Two servers that differ in the case of their addresses alone have one first hash, and one second
hash only if that of the addresses is the same. -/

namespace Server

/-- The servers differ only in the case of the address, the name and the source. -/
structure Twins (U : Jvm) (s s' : Server) : Prop where
  lower : U.lowercase s.address = U.lowercase s'.address
  rest : { s with address := "", name := "", source := "" } = { s' with address := "", name := "", source := "" }

/-- The list holds both, as two entries. -/
def Both (l : List Server) (s s' : Server) : Prop := List.Sublist [s, s'] l ∨ List.Sublist [s', s] l

/-- The two are one server: one id, and neither an import nor the store keeps both. -/
structure One (U : Jvm) (O : OrgJson) (s s' : Server) : Prop where
  id : s.id U = s'.id U
  imported : ∀ text source, ¬ Both (LinkParser.parseMany U O text source) s s'
  added : ∀ (st : AppState) (list : List Server), (st.ids U).Nodup →
    ¬ Both (Store.addServers U list st).servers s s'

variable {U : Jvm}

/-- **Twins have one id just when their addresses have one hash.** -/
theorem Twins.id_iff {s s' : Server} (h : Twins U s s') :
    s.id U = s'.id U ↔ hashCode s.address = hashCode s'.address := by
  obtain ⟨hl, hr⟩ := h
  simp only [Server.mk.injEq] at hr
  have hfirst : [s.protocol, U.lowercase s.address, toString s.port.toInt, s.secret, s.network, s.security, s.sni,
      s.pbk, s.sid, s.path, s.host, s.serviceName, s.flow] = [s'.protocol, U.lowercase s'.address,
      toString s'.port.toInt, s'.secret, s'.network, s'.security, s'.sni, s'.pbk, s'.sid, s'.path, s'.host,
      s'.serviceName, s'.flow] := by
    simp only [hl, hr]
  have hsecret : s.secret = s'.secret := by simp only [hr]
  have hport : s.port = s'.port := by simp only [hr]
  rw [id, id, hfirst, String.append_right_inj, hsecret, hport, String.append_assoc, String.append_assoc,
    ← hashCode_append_inj s.address s'.address (s'.secret ++ toString s'.port.toInt)]
  constructor
  · exact toHexString_inj
  · intro heq
    rw [heq]

/-- A list with distinct ids does not hold two servers of one id. -/
theorem not_both {l : List Server} {s s' : Server} (hn : (l.map (Server.id U)).Nodup) (h : s.id U = s'.id U) :
    ¬ Both l s s' := by
  rintro (hsub | hsub)
  · have hpair := hn.sublist (hsub.map (Server.id U))
    rw [List.map_cons, List.map_cons, List.map_nil, h] at hpair
    simp at hpair
  · have hpair := hn.sublist (hsub.map (Server.id U))
    rw [List.map_cons, List.map_cons, List.map_nil, h] at hpair
    simp at hpair

/-- **The spelling of the host does not matter** exactly when it does not change the hash
code of the address. -/
theorem spelling_ignored_iff (U : Jvm) (O : OrgJson) (s s' : Server) (h : Twins U s s') :
    One U O s s' ↔ hashCode s.address = hashCode s'.address := by
  rw [← h.id_iff]
  constructor
  · exact fun hone => hone.id
  · intro hid
    refine { id := hid, imported := ?_, added := ?_ }
    · intro text source
      exact not_both (LinkParser.nodup_parseMany text source) hid
    · intro st list hst
      -- merging adds no id twice, and storing keeps the list sound
      have hmerged : (AppState.ids U { st with servers := mergeServers U st.servers list }).Nodup :=
        KeyedList.nodup_merge hst list
      exact not_both (Store.sound_update U hmerged).ids_nodup hid

/-- Name and source alone never make two servers of one. -/
theorem spelling_ignored_name :
    let s : Server := { name := "a", protocol := "vless", address := "a.com", port := 443, secret := "u" }
    Twins Jvm.ascii s { s with name := "b", source := "list" } ∧
      (One Jvm.ascii JsonText.library s { s with name := "b", source := "list" } ↔ hashCode "a.com" = hashCode "a.com") := by
  intro s
  have htwins : Twins Jvm.ascii s { s with name := "b", source := "list" } := { lower := rfl, rest := rfl }
  exact ⟨htwins, spelling_ignored_iff Jvm.ascii JsonText.library s _ htwins⟩

/-- One server listed twice, once with a capital letter, is imported twice. -/
theorem capital_letter_imported_twice :
    let s : Server := { name := "A.com:443", protocol := "vless", address := "A.com", port := 443, secret := "u" }
    let s' : Server := { s with name := "a.com:443", address := "a.com" }
    Twins Jvm.ascii s s' ∧ s.id Jvm.ascii ≠ s'.id Jvm.ascii ∧
      LinkParser.parseMany Jvm.ascii JsonText.library "vless://u@A.com:443\nvless://u@a.com:443" "" = [s, s'] := by
  refine ⟨{ lower := by decide +kernel, rest := by decide +kernel }, by decide +kernel, by decide +kernel⟩

end Server

end VlessCard

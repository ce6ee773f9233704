/-
Micheline/Proofs/Identifier/Text.lean

The bytes that a text stands for have the same text again, though not always: of a signature
the curve is not kept, and of an address the name of the default entrypoint is dropped
(`Role.ofBytesWith_of_toBytesWith`).  Nothing else of an address is lost
(`Role.eq_of_dropDefault`).

With the way from bytes to texts and back, this says all that is kept between the two forms of
an identifier (`Role.forms_round_trip`).
-/
import Micheline.Proofs.Identifier.RoundTrip

namespace Micheline.Identifier

variable {sum : Base58.Checksum} {text : String} {data : Bytes}

/-! ### Addresses -/

namespace Address

/-- The text of an address without an entrypoint that is empty or the default one. -/
def withoutDefault (text : String) : String :=
  match split text with
  | (address, some name) => if name = "" ∨ name = defaultEntrypoint then address else text
  | (_, none) => text

/-- Splitting loses nothing but the percent sign. -/
theorem eq_of_splitChars {cs before : List Char} {after : Option (List Char)}
    (h : splitChars cs = (before, after)) : cs = before ++ after.elim [] ('%' :: ·) := by
  induction cs generalizing before with
  | nil =>
    obtain ⟨rfl, rfl⟩ := Prod.mk.inj h
    rfl
  | cons c cs ih =>
    rw [splitChars] at h
    split at h
    next hc =>
      obtain ⟨rfl, rfl⟩ := Prod.mk.inj h
      rw [hc]
      rfl
    next =>
      obtain ⟨rfl, hafter⟩ := Prod.mk.inj h
      exact congrArg (c :: ·) (ih (Prod.ext rfl hafter))

/-- A text is its address, and its entrypoint behind the mark. -/
theorem eq_of_split {address : String} {entrypoint : Option String}
    (h : split text = (address, entrypoint)) :
    text = address ++ entrypoint.elim "" ("%" ++ ·) := by
  obtain ⟨rfl, rfl⟩ := Prod.mk.inj h
  apply String.toList_injective
  rw [String.toList_append, String.toList_ofList]
  refine (eq_of_splitChars rfl).trans ?_
  rcases (splitChars text.toList).2 with - | name
  · rfl
  · simp

/-- The bytes of an address are those of its text. -/
theorem ofBodyWith_of_body? {kind : Kind} {payload body : Bytes} {address : String}
    (h : body? kind payload = some body) (haddress : encodeWith sum kind payload = .ok address) :
    ofBodyWith sum body = .ok address := by
  cases kind
  case ed25519PublicKeyHash | secp256k1PublicKeyHash | p256PublicKeyHash
    | bls12381PublicKeyHash =>
    obtain rfl := Option.some.inj h
    exact haddress
  case contractHash | txRollupHash | smartRollupHash =>
    obtain rfl := Option.some.inj h
    have hlast : (payload ++ [0]).getLast? = some 0 := List.getLast?_concat
    show (if (payload ++ [0]).getLast? = some 0 then
      encodeWith sum _ (payload ++ [0]).dropLast else _) = _
    rw [if_pos hlast, List.dropLast_concat]
    exact haddress
  all_goals cases h

/-- **The bytes of an address have its text**, without an entrypoint that says nothing. -/
theorem ofBytesWith_of_toBytesWith (h : toBytesWith sum text = .ok data) :
    ofBytesWith sum data = .ok (withoutDefault text) := by
  rcases hsplit : split text with ⟨address, entrypoint⟩
  obtain ⟨kind, payload, body, hencode, hbody, rfl⟩ := (toBytesWith_eq_ok_iff hsplit).1 h
  have hwidth : body.length = width := length_of_body? hbody hencode
  have haddress : ofBodyWith sum body = .ok address := ofBodyWith_of_body? hbody hencode
  have hle : width ≤ (body ++ suffix entrypoint).length := by
    rw [List.length_append]
    omega
  -- The bytes of an address have one width, so they are cut off where they ended.
  have htake : ofBodyWith sum ((body ++ suffix entrypoint).take width) = .ok address := by
    rw [List.take_left' hwidth]
    exact haddress
  have hdrop : (body ++ suffix entrypoint).drop width = suffix entrypoint :=
    List.drop_left' hwidth
  have htext := eq_of_split hsplit
  apply ofBytesWith_eq_ok_iff.2
  refine ⟨hle, address, htake, ?_⟩
  rw [hdrop, withoutDefault, hsplit]
  rcases entrypoint with - | name
  · refine .inl ⟨.inl rfl, ?_⟩
    rw [htext]
    exact String.append_empty
  · dsimp only
    by_cases hname : name = "" ∨ name = defaultEntrypoint
    · rw [if_pos hname]
      exact .inl ⟨.inl (if_pos hname), rfl⟩
    · obtain ⟨hempty, hdefault⟩ := not_or.1 hname
      rw [if_neg hname]
      refine .inr ⟨name, hempty, hdefault, if_neg hname, ?_⟩
      rw [htext, String.append_assoc]
      rfl

end Address

/-! ### Keys, signatures, chains and rollups -/

/-- The bytes of a key hash have the text that they were read from. -/
theorem KeyHash.ofBytesWith_of_toBytesWith (h : KeyHash.toBytesWith sum text = .ok data) :
    KeyHash.ofBytesWith sum data = .ok text := by
  obtain ⟨⟨kind, payload⟩, hdecode, h⟩ := bind_eq_ok_iff.1 h
  have hencode := decodeWith_eq_ok_iff.1 hdecode
  have hlen := length_of_decodeWith hdecode
  cases kind
  case ed25519PublicKeyHash | secp256k1PublicKeyHash | p256PublicKeyHash
    | bls12381PublicKeyHash =>
    obtain rfl := pure_eq_ok_iff.1 h
    have hpayload : ¬payload.length ≠ 20 := fun hne => hne hlen
    exact (if_neg hpayload).trans hencode
  all_goals cases h

/-- The bytes of a public key have the text that they were read from. -/
theorem PublicKey.ofBytesWith_of_toBytesWith (h : PublicKey.toBytesWith sum text = .ok data) :
    PublicKey.ofBytesWith sum data = .ok text := by
  obtain ⟨⟨kind, payload⟩, hdecode, h⟩ := bind_eq_ok_iff.1 h
  have hencode := decodeWith_eq_ok_iff.1 hdecode
  cases kind
  case ed25519PublicKey | secp256k1PublicKey | p256PublicKey | bls12381PublicKey =>
    obtain rfl := pure_eq_ok_iff.1 h
    exact hencode
  all_goals cases h

theorem RollupAddress.ofBytesWith_of_toBytesWith
    (h : RollupAddress.toBytesWith sum text = .ok data) :
    RollupAddress.ofBytesWith sum data = .ok text := by
  have hencode := decodeKindWith_eq_ok_iff.1 h
  have hlen : data.length = 20 := (encodeWith_eq_ok_iff.1 hencode).1
  exact (if_pos hlen).trans hencode

/-- Every payload of the right length has a text. -/
theorem exists_encodeWith {kind : Kind} {payload : Bytes}
    (h : payload.length = kind.payloadLength) : ∃ text, encodeWith sum kind payload = .ok text :=
  ⟨_, if_pos h⟩

/-- The bytes of a signature have a text, which has no curve unless they tell it. -/
theorem Signature.exists_ofBytesWith_of_toBytesWith
    (h : Signature.toBytesWith sum text = .ok data) :
    ∃ text', Signature.ofBytesWith sum data = .ok text' := by
  obtain ⟨⟨kind, payload⟩, hdecode, h⟩ := bind_eq_ok_iff.1 h
  have hlen := length_of_decodeWith hdecode
  cases kind
  case bls12381Signature =>
    obtain rfl := pure_eq_ok_iff.1 h
    obtain ⟨signature, hsignature⟩ := exists_encodeWith hlen
    have hne : ¬payload.length = 64 := by
      rw [hlen]
      decide
    exact ⟨signature, ((if_neg hne).trans (if_pos hlen)).trans hsignature⟩
  case ed25519Signature | secp256k1Signature | p256Signature | genericSignature =>
    -- all of them are written as signatures without a curve
    obtain rfl := pure_eq_ok_iff.1 h
    have hgeneric : payload.length = Kind.genericSignature.payloadLength := hlen
    obtain ⟨signature, hsignature⟩ := exists_encodeWith hgeneric
    exact ⟨signature, (if_pos hlen).trans hsignature⟩
  all_goals cases h

/-! ### All uses -/

/-- The text that is read back: of an address all but an entrypoint that says nothing. -/
def Role.withoutDefault : Role → String → String
  | .address, text => Address.withoutDefault text
  | _, text => text

/-- **The bytes of a text have the text**, whatever the checksum is; only the curve of a signature
is not kept. -/
theorem Role.ofBytesWith_of_toBytesWith {role : Role} (hrole : role ≠ .signature)
    (h : role.toBytesWith sum text = .ok data) :
    role.ofBytesWith sum data = .ok (role.withoutDefault text) := by
  cases role with
  | address => exact Address.ofBytesWith_of_toBytesWith h
  | keyHash => exact KeyHash.ofBytesWith_of_toBytesWith h
  | key => exact PublicKey.ofBytesWith_of_toBytesWith h
  | signature => exact absurd rfl hrole
  | chainId => exact decodeKindWith_eq_ok_iff.1 h
  | rollupAddress => exact RollupAddress.ofBytesWith_of_toBytesWith h

/-- What was read has a text, signatures included. -/
theorem Role.exists_ofBytesWith_of_toBytesWith {role : Role}
    (h : role.toBytesWith sum text = .ok data) :
    ∃ text', role.ofBytesWith sum data = .ok text' := by
  by_cases hrole : role = .signature
  · subst hrole
    exact Signature.exists_ofBytesWith_of_toBytesWith h
  · exact ⟨_, ofBytesWith_of_toBytesWith hrole h⟩

/-- **The bytes of a text have a text.** -/
theorem Role.exists_ofBytes_of_toBytes {role : Role} (h : role.toBytes text = .ok data) :
    ∃ text', role.ofBytes data = .ok text' :=
  exists_ofBytesWith_of_toBytesWith h

/-- **Texts and bytes of identifiers**, whatever the checksum is.  The bytes of a text have the
text again without an entrypoint that says nothing; of a signature, whose curve is not kept, and
of all others they have a text that stands for the same bytes.  The text of bytes stands for the
bytes without a default entrypoint. -/
theorem Role.forms_round_trip (sum : Base58.Checksum) (role : Role) :
    (∀ (text : String) (data : Bytes), role.toBytesWith sum text = .ok data →
        (role ≠ .signature → role.ofBytesWith sum data = .ok (role.withoutDefault text))
          ∧ ∃ text', role.ofBytesWith sum data = .ok text'
            ∧ role.toBytesWith sum text' = .ok data)
      ∧ ∀ (data : Bytes) (text : String), role.ofBytesWith sum data = .ok text →
        role.toBytesWith sum text = .ok (role.dropDefault data) := by
  refine ⟨fun text data h => ⟨fun hrole => ofBytesWith_of_toBytesWith hrole h, ?_⟩,
    fun _ _ => toBytesWith_of_ofBytesWith⟩
  obtain ⟨text', htext'⟩ := exists_ofBytesWith_of_toBytesWith h
  have hdata := toBytesWith_of_ofBytesWith htext'
  rw [dropDefault_of_not (not_spellsDefault_of_toBytesWith h)] at hdata
  exact ⟨text', htext', hdata⟩

/-- An entrypoint that is the default one is not read back. -/
theorem Role.forms_round_trip_default :
    Role.address.withoutDefault "tz1VSUr8wwNhLAzempoch5d6hLRiTh8Cjcjb%default"
        = "tz1VSUr8wwNhLAzempoch5d6hLRiTh8Cjcjb"
      ∧ ∃ data, Role.address.toBytesWith Base58.doubleSha256
            "tz1VSUr8wwNhLAzempoch5d6hLRiTh8Cjcjb%default" = .ok data
          ∧ Role.address.ofBytesWith Base58.doubleSha256 data
            = .ok "tz1VSUr8wwNhLAzempoch5d6hLRiTh8Cjcjb" := by
  have hwithout : Role.address.withoutDefault "tz1VSUr8wwNhLAzempoch5d6hLRiTh8Cjcjb%default"
      = "tz1VSUr8wwNhLAzempoch5d6hLRiTh8Cjcjb" := by
    decide +kernel
  have hisOk : (Role.address.toBytesWith Base58.doubleSha256
      "tz1VSUr8wwNhLAzempoch5d6hLRiTh8Cjcjb%default").isOk = true := by
    decide +kernel
  rcases hdata : Role.address.toBytesWith Base58.doubleSha256
      "tz1VSUr8wwNhLAzempoch5d6hLRiTh8Cjcjb%default" with cause | data
  · rw [hdata] at hisOk
    cases hisOk
  · have h := ((forms_round_trip Base58.doubleSha256 .address).1 _ data hdata).1 nofun
    exact ⟨hwithout, data, rfl, h.trans (congrArg Except.ok hwithout)⟩

/-! ### Default entrypoints -/

/-- Two addresses that both have the default entrypoint, or both do not have it, are equal if
they are without it. -/
theorem Address.eq_of_dropDefault {d e : Bytes} (hspells : SpellsDefault d ↔ SpellsDefault e)
    (h : dropDefault d = dropDefault e) : d = e := by
  by_cases hd : SpellsDefault d
  · have he : SpellsDefault e := hspells.1 hd
    rw [dropDefault, dropDefault, if_pos hd, if_pos he] at h
    rw [← List.take_append_drop width d, ← List.take_append_drop width e, h, hd, he]
  · have he : ¬SpellsDefault e := fun he => hd (hspells.2 he)
    rwa [dropDefault, dropDefault, if_neg hd, if_neg he] at h

/-- Bytes that are alike without the default entrypoint, and in whether they spell it, are the
same. -/
theorem Role.eq_of_dropDefault {role : Role} {d e : Bytes}
    (hspells : role.SpellsDefault d ↔ role.SpellsDefault e)
    (h : role.dropDefault d = role.dropDefault e) : d = e := by
  cases role with
  | address => exact Address.eq_of_dropDefault hspells h
  | _ => exact h

end Micheline.Identifier

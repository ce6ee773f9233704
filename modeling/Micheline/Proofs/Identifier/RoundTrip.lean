/-
Micheline/Proofs/Identifier/RoundTrip.lean

Identifiers given by their bytes are read back from their texts.  No two kinds fit the same
data, so that a text says which kind it is of: payloads of a kind and texts stand for each
other (`decodeWith_eq_ok_iff`), and no identifier has two texts (`text_unique`).  The bytes of
each use say the kind that they are written as.  Of an address a default entrypoint is not
written; all else comes back (`Role.toBytesWith_of_ofBytesWith`).

The bytes of a text never have a default entrypoint (`Role.not_spellsDefault_of_toBytesWith`), so
that those that come back come back once more.

Nothing here depends on the checksum of the texts.
-/
import Micheline.Identifier.Role
import Micheline.Proofs.Base58.RoundTrip

namespace Micheline.Identifier

/-! ### Kinds -/

namespace Kind

/-- Kinds with data of one length have versions of which none is the beginning of another
one. -/
theorem eq_of_version_prefix : ∀ k k' : Kind,
    k.version.length + k.payloadLength = k'.version.length + k'.payloadLength →
    k.version <+: k'.version ∨ k'.version <+: k.version → k = k' := by
  have h : ∀ k ∈ all, ∀ k' ∈ all,
      k.version.length + k.payloadLength = k'.version.length + k'.payloadLength →
      k.version <+: k'.version ∨ k'.version <+: k.version → k = k' := by
    decide +kernel
  exact fun k k' => h k (mem_all k) k' (mem_all k')

theorem fits_iff {k : Kind} {data : Bytes} :
    k.fits data = true ↔ k.version <+: data ∧ data.length = k.version.length + k.payloadLength := by
  simp [fits]

/-- **Data fits one kind at most.** -/
theorem eq_of_fits {k k' : Kind} {data : Bytes} (h : k.fits data = true)
    (h' : k'.fits data = true) : k = k' := by
  obtain ⟨hbegins, hlen⟩ := fits_iff.1 h
  obtain ⟨hbegins', hlen'⟩ := fits_iff.1 h'
  exact eq_of_version_prefix k k' (hlen.symm.trans hlen')
    (List.prefix_or_prefix_of_prefix hbegins hbegins')

/-- The version in front of a payload of the right length tells the kind. -/
theorem find?_fits {k : Kind} {payload : Bytes} (h : payload.length = k.payloadLength) :
    all.find? (·.fits (k.version ++ payload)) = some k := by
  have hfits : k.fits (k.version ++ payload) = true :=
    fits_iff.2 ⟨List.prefix_append _ _, by rw [List.length_append, h]⟩
  rcases hfind : all.find? (·.fits (k.version ++ payload)) with - | k'
  · exact absurd hfits (List.find?_eq_none.1 hfind k (mem_all k))
  · have hfits' := List.find?_some hfind
    exact hfind.trans (congrArg some (eq_of_fits hfits' hfits))

theorem nodup_keyHashes : keyHashes.Nodup := by decide

theorem nodup_publicKeys : publicKeys.Nodup := by decide

/-- A kind stands in a table at the tag that it was taken from. -/
theorem idxOf?_of_getElem? {table : List Kind} (hnd : table.Nodup) {i : Nat} {k : Kind}
    (h : table[i]? = some k) : table.idxOf? k = some i := by
  obtain ⟨hi, rfl⟩ := List.getElem?_eq_some_iff.1 h
  refine List.idxOf?_eq_some_iff.2 ⟨hi, rfl, fun j hj he => ?_⟩
  have hji : j = i := (List.getElem_inj hnd).1 he
  omega

end Kind

/-! ### Texts -/

section Texts

variable {sum : Base58.Checksum} {kind : Kind} {payload : Bytes} {text : String}

/-- A payload has a text exactly if it has the length of its kind. -/
theorem encodeWith_eq_ok_iff : encodeWith sum kind payload = .ok text
    ↔ payload.length = kind.payloadLength
      ∧ Base58.encodeChecked sum (kind.version ++ payload) = text := by
  rw [encodeWith]
  split
  next hlen => rw [Except.ok.injEq, and_iff_right hlen]
  next hlen => exact ⟨nofun, fun h => absurd h.1 hlen⟩

/-- **Payloads and texts stand for each other**, and so do kinds and texts. -/
theorem decodeWith_eq_ok_iff :
    decodeWith sum text = .ok (kind, payload) ↔ encodeWith sum kind payload = .ok text := by
  rw [encodeWith_eq_ok_iff]
  constructor
  · intro h
    rw [decodeWith] at h
    split at h
    next => cases h
    next data hdata =>
      split at h
      next k hfind =>
        obtain ⟨rfl, rfl⟩ := Prod.mk.inj (Except.ok.inj h)
        -- The first row that fits is the only one, so the search and the given kind agree.
        have hfits := List.find?_some hfind
        obtain ⟨⟨rest, rfl⟩, hlen⟩ := Kind.fits_iff.1 hfits
        rw [List.length_append] at hlen
        rw [List.drop_left]
        exact ⟨Nat.add_left_cancel hlen, Base58.decodeChecked_eq_ok_iff.1 hdata⟩
      next => cases h
  · rintro ⟨hlen, rfl⟩
    simp only [decodeWith, Base58.decodeChecked_encodeChecked, Kind.find?_fits hlen,
      List.drop_left]

/-- A text decodes to a payload exactly if the payload is encoded as the text. -/
theorem decodeKindWith_eq_ok_iff :
    decodeKindWith sum kind text = .ok payload ↔ encodeWith sum kind payload = .ok text := by
  rw [← decodeWith_eq_ok_iff, decodeKindWith, bind_eq_ok_iff]
  constructor
  · rintro ⟨⟨found, data⟩, hdecode, h⟩
    dsimp only at h
    split at h
    next hfound =>
      obtain rfl := pure_eq_ok_iff.1 h
      rw [hdecode, hfound]
    next => cases h
  · intro h
    exact ⟨(kind, payload), h, if_pos rfl⟩

theorem percent_notMem_of_encodeWith (h : encodeWith sum kind payload = .ok text) :
    '%' ∉ text.toList := by
  obtain ⟨-, rfl⟩ := encodeWith_eq_ok_iff.1 h
  exact Base58.percent_notMem_encode _

theorem length_of_decodeWith (h : decodeWith sum text = .ok (kind, payload)) :
    payload.length = kind.payloadLength :=
  (encodeWith_eq_ok_iff.1 (decodeWith_eq_ok_iff.1 h)).1

end Texts

/-- **Every identifier has one text**, whatever the checksum is.  A text is read as a payload of
a kind exactly if the payload is written so.  So no two texts are read alike, no text is of two
kinds, and a text that must be of a kind is one of those that payloads of the kind are written
as; and data with its checksum has one text too. -/
theorem text_unique (sum : Base58.Checksum) :
    (∀ (kind : Kind) (payload : Bytes) (text : String),
        decodeWith sum text = .ok (kind, payload) ↔ encodeWith sum kind payload = .ok text)
      ∧ (∀ (found : Kind × Bytes) (text text' : String),
        decodeWith sum text = .ok found → decodeWith sum text' = .ok found → text = text')
      ∧ (∀ (text : String) (data : Bytes) (kind kind' : Kind),
        Base58.decodeChecked sum text = .ok data → kind.fits data = true →
          kind'.fits data = true → kind = kind')
      ∧ (∀ (kind : Kind) (payload : Bytes) (text : String),
        decodeKindWith sum kind text = .ok payload ↔ encodeWith sum kind payload = .ok text)
      ∧ ∀ (data : Bytes) (text : String),
        Base58.decodeChecked sum text = .ok data ↔ Base58.encodeChecked sum data = text := by
  refine ⟨fun _ _ _ => decodeWith_eq_ok_iff, ?_, fun _ _ _ _ _ => Kind.eq_of_fits,
    fun _ _ _ => decodeKindWith_eq_ok_iff, fun _ _ => Base58.decodeChecked_eq_ok_iff⟩
  rintro ⟨kind, payload⟩ text text' h h'
  have hwritten := decodeWith_eq_ok_iff.1 h
  exact Except.ok.inj (hwritten.symm.trans (decodeWith_eq_ok_iff.1 h'))

/-- No other text is read as the identifier of the chain "NetXdQprcVkpaWU". -/
theorem text_unique_chain :
    decodeWith Base58.doubleSha256 "NetXdQprcVkpaWU"
        = .ok (.chainId, [0x7a, 0x06, 0xa7, 0x70])
      ∧ Kind.chainId.fits [87, 82, 0, 0x7a, 0x06, 0xa7, 0x70] = true
      ∧ ∀ text, decodeWith Base58.doubleSha256 text = .ok (.chainId, [0x7a, 0x06, 0xa7, 0x70]) →
        text = "NetXdQprcVkpaWU" := by
  have hread : decodeWith Base58.doubleSha256 "NetXdQprcVkpaWU"
      = .ok (.chainId, [0x7a, 0x06, 0xa7, 0x70]) := by
    decide +kernel
  exact ⟨hread, by decide, fun text htext =>
    (text_unique Base58.doubleSha256).2.1 _ text _ htext hread⟩

variable {sum : Base58.Checksum}

/-! ### Addresses -/

namespace Address

theorem splitChars_of_notMem {cs : List Char} (h : '%' ∉ cs) : splitChars cs = (cs, none) := by
  induction cs with
  | nil => rfl
  | cons c cs ih =>
    obtain ⟨hc, hcs⟩ := List.ne_and_not_mem_of_not_mem_cons h
    rw [splitChars, if_neg (Ne.symm hc), ih hcs]

theorem splitChars_append {cs rest : List Char} (h : '%' ∉ cs) :
    splitChars (cs ++ '%' :: rest) = (cs, some rest) := by
  induction cs with
  | nil => exact if_pos rfl
  | cons c cs ih =>
    obtain ⟨hc, hcs⟩ := List.ne_and_not_mem_of_not_mem_cons h
    rw [List.cons_append, splitChars, if_neg (Ne.symm hc), ih hcs]

theorem split_of_notMem {address : String} (h : '%' ∉ address.toList) :
    split address = (address, none) := by
  rw [split, splitChars_of_notMem h]
  simp

/-- A text is cut at the first mark, since there is none in an address. -/
theorem split_append {address name : String} (h : '%' ∉ address.toList) :
    split (address ++ "%" ++ name) = (address, some name) := by
  have htoList : (address ++ "%" ++ name).toList = address.toList ++ '%' :: name.toList := by
    simp
  rw [split, htoList, splitChars_append h]
  simp

/-- The tags of contracts and rollups count from one on. -/
theorem tag?_of_getElem? {kind : Kind} {n : Nat} (hn : n ≠ 0)
    (h : [Kind.contractHash, .txRollupHash, .smartRollupHash][n - 1]? = some kind) :
    Kind.keyHashes.idxOf? kind = none ∧ tag? kind = some (UInt8.ofNat n) := by
  match n, hn, h with
  | 1, _, rfl => exact ⟨rfl, rfl⟩
  | 2, _, rfl => exact ⟨rfl, rfl⟩
  | 3, _, rfl => exact ⟨rfl, rfl⟩

/-- The twenty-two bytes are those of the kind and the payload that they are written as. -/
theorem exists_of_ofBodyWith {body : Bytes} {address : String}
    (h : ofBodyWith sum body = .ok address) :
    ∃ kind payload, encodeWith sum kind payload = .ok address
      ∧ body? kind payload = some body := by
  match body with
  | [] => cases h
  | tag :: rest =>
    rw [ofBodyWith.eq_def] at h
    dsimp only at h
    split at h
    next htag =>
      -- an account
      match rest with
      | [] => cases h
      | curve :: payload =>
        dsimp only at h
        split at h
        next kind hkind =>
          refine ⟨kind, payload, h, ?_⟩
          rw [body?, Kind.idxOf?_of_getElem? Kind.nodup_keyHashes hkind, htag]
          show some (0 :: UInt8.ofNat curve.toNat :: payload) = _
          rw [UInt8.ofNat_toNat]
        next => cases h
    next htag =>
      -- a contract or a rollup
      split at h
      next => cases h
      next kind hkind =>
        split at h
        next hpad =>
          refine ⟨kind, rest.dropLast, h, ?_⟩
          have hrest : rest.dropLast ++ [0] = rest :=
            List.dropLast_append_getLast? 0 (by rw [hpad]; rfl)
          have hne : tag.toNat ≠ 0 := fun h0 => htag (UInt8.toNat_inj.1 h0)
          obtain ⟨hidx, htagOf⟩ := tag?_of_getElem? hne hkind
          rw [body?, hidx, htagOf, UInt8.ofNat_toNat]
          show some (tag :: (rest.dropLast ++ [0])) = _
          rw [hrest]
        next => cases h

/-- The bytes have the name of the default entrypoint behind them. -/
def SpellsDefault (data : Bytes) : Prop :=
  data.drop width = Utf8.encode defaultEntrypoint

instance (data : Bytes) : Decidable (SpellsDefault data) :=
  inferInstanceAs (Decidable (data.drop width = Utf8.encode defaultEntrypoint))

theorem not_spellsDefault_of_length {data : Bytes} (h : data.length ≤ width) :
    ¬SpellsDefault data := by
  rw [SpellsDefault, List.drop_of_length_le h]
  decide +kernel

/-- The bytes of an address without a default entrypoint behind them. -/
def dropDefault (data : Bytes) : Bytes :=
  if SpellsDefault data then data.take width else data

/-- What the bytes of an address are: those of what stands before the percent sign, and then the
entrypoint. -/
theorem toBytesWith_eq_ok_iff {text address : String} {entrypoint : Option String} {data : Bytes}
    (hsplit : split text = (address, entrypoint)) :
    toBytesWith sum text = .ok data
      ↔ ∃ kind payload body, encodeWith sum kind payload = .ok address
        ∧ body? kind payload = some body ∧ data = body ++ suffix entrypoint := by
  rw [toBytesWith, hsplit]
  constructor
  · intro h
    dsimp only at h
    split at h
    next => cases h
    next kind payload hdecode =>
      split at h
      next body hbody =>
        exact ⟨kind, payload, body, decodeWith_eq_ok_iff.1 hdecode, hbody, (Except.ok.inj h).symm⟩
      next => cases h
  · rintro ⟨kind, payload, body, hencode, hbody, rfl⟩
    simp only [decodeWith_eq_ok_iff.2 hencode, hbody]

/-- What the text of an address is: an entrypoint is written if it has a name that is not the
default one. -/
theorem ofBytesWith_eq_ok_iff {data : Bytes} {text : String} :
    ofBytesWith sum data = .ok text
      ↔ width ≤ data.length ∧ ∃ address, ofBodyWith sum (data.take width) = .ok address
        ∧ ((data.drop width = [] ∨ SpellsDefault data) ∧ text = address
          ∨ ∃ name, name ≠ "" ∧ name ≠ defaultEntrypoint ∧ data.drop width = Utf8.encode name
            ∧ text = address ++ "%" ++ name) := by
  -- The branches of the decoder are: too short, nothing behind the address, a suffix that is no
  -- text, the default entrypoint, and another name.  The empty name is the second of them.
  have hempty : (Utf8.encode defaultEntrypoint).isEmpty = false := by decide +kernel
  rw [ofBytesWith]
  constructor
  · intro h
    split at h
    next => cases h
    next hlen =>
      obtain ⟨address, haddress, h⟩ := bind_eq_ok_iff.1 h
      refine ⟨Nat.le_of_not_lt hlen, address, haddress, ?_⟩
      dsimp only at h
      split at h
      next hnil => exact .inl ⟨.inl (List.isEmpty_iff.1 hnil), (pure_eq_ok_iff.1 h).symm⟩
      next hnil =>
        split at h
        next => cases h
        next name hname =>
          have hsuffix : data.drop width = Utf8.encode name := Utf8.decode?_eq_some_iff.1 hname
          have h := pure_eq_ok_iff.1 h
          split at h
          next hdefault =>
            exact .inl ⟨.inr (hsuffix.trans (congrArg Utf8.encode hdefault)), h.symm⟩
          next hdefault =>
            refine .inr ⟨name, ?_, hdefault, hsuffix, h.symm⟩
            rintro rfl
            exact hnil (by rw [hsuffix]; rfl)
  · rintro ⟨hlen, address, haddress, h⟩
    rw [if_neg (Nat.not_lt.2 hlen), haddress]
    dsimp only [pure_bind, bind, Except.bind, pure, Except.pure]
    obtain ⟨hsuffix | hsuffix, rfl⟩ | ⟨name, hne, hdefault, hsuffix, rfl⟩ := h
    · rw [hsuffix]
      rfl
    · rw [hsuffix, hempty, Utf8.decode?_encode]
      rfl
    · have hname : ¬(Utf8.encode name).isEmpty = true := fun hnil =>
        hne (Utf8.encode_injective (List.isEmpty_iff.1 hnil))
      rw [hsuffix, if_neg hname, Utf8.decode?_encode]
      exact congrArg Except.ok (if_neg hdefault)

/-- **An address is read back** but for a default entrypoint. -/
theorem toBytesWith_of_ofBytesWith {data : Bytes} {text : String}
    (h : ofBytesWith sum data = .ok text) : toBytesWith sum text = .ok (dropDefault data) := by
  obtain ⟨hlen, address, haddress, h⟩ := ofBytesWith_eq_ok_iff.1 h
  obtain ⟨kind, payload, hencode, hbody⟩ := exists_of_ofBodyWith haddress
  have hpercent := percent_notMem_of_encodeWith hencode
  have hdata : data.take width ++ data.drop width = data := List.take_append_drop _ _
  obtain ⟨hsuffix, rfl⟩ | ⟨name, hne, hdefault, hsuffix, rfl⟩ := h
  · -- nothing is written behind the address
    refine (toBytesWith_eq_ok_iff (split_of_notMem hpercent)).2
      ⟨kind, payload, _, hencode, hbody, ?_⟩
    refine Eq.trans ?_ (List.append_nil _).symm
    rcases hsuffix with hnil | hspells
    · have hnot : ¬SpellsDefault data :=
        not_spellsDefault_of_length (List.drop_eq_nil_iff.1 hnil)
      rw [dropDefault, if_neg hnot, List.take_of_length_le (List.drop_eq_nil_iff.1 hnil)]
    · rw [dropDefault, if_pos hspells]
  · have hnot : ¬SpellsDefault data := by
      rw [SpellsDefault, hsuffix]
      exact fun he => hdefault (Utf8.encode_injective he)
    refine (toBytesWith_eq_ok_iff (split_append hpercent)).2
      ⟨kind, payload, _, hencode, hbody, ?_⟩
    rw [dropDefault, if_neg hnot, suffix, if_neg (not_or.2 ⟨hne, hdefault⟩), ← hsuffix, hdata]

/-- A body without a suffix is an address without an entrypoint. -/
theorem ofBytesWith_of_ofBodyWith {body : Bytes} {address : String} (hlen : body.length = width)
    (h : ofBodyWith sum body = .ok address) : ofBytesWith sum body = .ok address := by
  have htake : body.take width = body := List.take_of_length_le (Nat.le_of_eq hlen)
  have hdrop : body.drop width = [] := List.drop_of_length_le (Nat.le_of_eq hlen)
  exact ofBytesWith_eq_ok_iff.2
    ⟨Nat.le_of_eq hlen.symm, address, htake.symm ▸ h, .inl ⟨.inl hdrop, rfl⟩⟩

/-- The name of the default entrypoint is not written. -/
theorem ofBytesWith_append_default {body : Bytes} {address : String}
    (hlen : body.length = width) (h : ofBodyWith sum body = .ok address) :
    ofBytesWith sum (body ++ Utf8.encode defaultEntrypoint) = .ok address := by
  refine ofBytesWith_eq_ok_iff.2 ⟨?_, address, ?_, .inl ⟨.inr (List.drop_left' hlen), rfl⟩⟩
  · rw [List.length_append]
    omega
  · rw [List.take_left' hlen]
    exact h

/-- An address without a default entrypoint has the same text. -/
theorem ofBytesWith_dropDefault {data : Bytes} {text : String}
    (h : ofBytesWith sum data = .ok text) : ofBytesWith sum (dropDefault data) = .ok text := by
  by_cases hspells : SpellsDefault data
  · obtain ⟨hlen, address, haddress, ⟨-, rfl⟩ | ⟨name, -, hdefault, hsuffix, -⟩⟩ :=
      ofBytesWith_eq_ok_iff.1 h
    · rw [dropDefault, if_pos hspells]
      exact ofBytesWith_of_ofBodyWith (List.length_take_of_le hlen) haddress
    · exact absurd (Utf8.encode_injective (hsuffix.symm.trans hspells)) hdefault
  · rw [dropDefault, if_neg hspells]
    exact h

/-- Once dropped, the default entrypoint is not spelled any more. -/
theorem not_spellsDefault_dropDefault (data : Bytes) : ¬SpellsDefault (dropDefault data) := by
  by_cases hspells : SpellsDefault data
  · rw [dropDefault, if_pos hspells]
    exact not_spellsDefault_of_length (List.length_take_le width data)
  · rw [dropDefault, if_neg hspells]
    exact hspells

/-- The body of every kind of address has the width of addresses. -/
theorem length_of_body? {kind : Kind} {payload body : Bytes} {address : String}
    (h : body? kind payload = some body) (haddress : encodeWith sum kind payload = .ok address) :
    body.length = width := by
  have hlen := (encodeWith_eq_ok_iff.1 haddress).1
  cases kind
  -- the hashes of keys, of contracts and of rollups have twenty bytes
  case ed25519PublicKeyHash | secp256k1PublicKeyHash | p256PublicKeyHash
    | bls12381PublicKeyHash =>
    obtain rfl := Option.some.inj h
    simpa [width, Kind.payloadLength] using hlen
  case contractHash | txRollupHash | smartRollupHash =>
    obtain rfl := Option.some.inj h
    simpa [width, Kind.payloadLength] using hlen
  all_goals cases h

/-- The default entrypoint is never written. -/
theorem suffix_ne (entrypoint : Option String) :
    suffix entrypoint ≠ Utf8.encode defaultEntrypoint := by
  have hnil : [] ≠ Utf8.encode defaultEntrypoint := by decide +kernel
  rcases entrypoint with - | name
  · exact hnil
  · rw [suffix]
    split
    next => exact hnil
    next hname => exact fun he => hname (.inr (Utf8.encode_injective he))

/-- The bytes of a text have no default entrypoint. -/
theorem not_spellsDefault_of_toBytesWith {text : String} {data : Bytes}
    (h : toBytesWith sum text = .ok data) : ¬SpellsDefault data := by
  obtain ⟨kind, payload, body, hencode, hbody, rfl⟩ := (toBytesWith_eq_ok_iff rfl).1 h
  rw [SpellsDefault, List.drop_left' (length_of_body? hbody hencode)]
  exact suffix_ne _

end Address

/-! ### Keys, signatures, chains and rollups -/

/-- The text of a key hash has its bytes: one for the curve, then the hash. -/
theorem KeyHash.toBytesWith_of_ofBytesWith {data : Bytes} {text : String}
    (h : KeyHash.ofBytesWith sum data = .ok text) : KeyHash.toBytesWith sum text = .ok data := by
  match data with
  | [] => cases h
  | curve :: payload =>
    rw [KeyHash.ofBytesWith] at h
    split at h
    next => cases h
    next =>
      split at h
      next kind hkind =>
        rw [KeyHash.toBytesWith, decodeWith_eq_ok_iff.2 h]
        dsimp only [bind, Except.bind]
        rw [Kind.idxOf?_of_getElem? Kind.nodup_keyHashes hkind]
        show Except.ok (UInt8.ofNat curve.toNat :: payload) = _
        rw [UInt8.ofNat_toNat]
      next => cases h

/-- The text of a public key has its bytes: one for the curve, then the key. -/
theorem PublicKey.toBytesWith_of_ofBytesWith {data : Bytes} {text : String}
    (h : PublicKey.ofBytesWith sum data = .ok text) :
    PublicKey.toBytesWith sum text = .ok data := by
  match data with
  | [] => cases h
  | curve :: payload =>
    rw [PublicKey.ofBytesWith] at h
    split at h
    next kind hkind =>
      rw [PublicKey.toBytesWith, decodeWith_eq_ok_iff.2 h]
      dsimp only [bind, Except.bind]
      rw [Kind.idxOf?_of_getElem? Kind.nodup_publicKeys hkind]
      show Except.ok (UInt8.ofNat curve.toNat :: payload) = _
      rw [UInt8.ofNat_toNat]
    next => cases h

theorem Signature.toBytesWith_of_ofBytesWith {data : Bytes} {text : String}
    (h : Signature.ofBytesWith sum data = .ok text) :
    Signature.toBytesWith sum text = .ok data := by
  rw [Signature.ofBytesWith] at h
  rw [Signature.toBytesWith]
  split at h
  next =>
    rw [decodeWith_eq_ok_iff.2 h]
    rfl
  next =>
    split at h
    next =>
      rw [decodeWith_eq_ok_iff.2 h]
      rfl
    next => cases h

theorem RollupAddress.toBytesWith_of_ofBytesWith {data : Bytes} {text : String}
    (h : RollupAddress.ofBytesWith sum data = .ok text) :
    RollupAddress.toBytesWith sum text = .ok data := by
  rw [RollupAddress.ofBytesWith] at h
  split at h
  next => exact decodeKindWith_eq_ok_iff.2 h
  next => cases h

/-! ### All uses -/

/-- The bytes are those of an address with the default entrypoint behind it. -/
def Role.SpellsDefault : Role → Bytes → Prop
  | .address, data => Address.SpellsDefault data
  | _, _ => False

instance : ∀ (role : Role) (data : Bytes), Decidable (role.SpellsDefault data)
  | .address, data => inferInstanceAs (Decidable (Address.SpellsDefault data))
  | .keyHash, _ | .key, _ | .signature, _ | .chainId, _ | .rollupAddress, _ => isFalse id

/-- The bytes that are read back: of an address all but a default entrypoint. -/
def Role.dropDefault : Role → Bytes → Bytes
  | .address, data => Address.dropDefault data
  | _, data => data

theorem Role.dropDefault_of_not {role : Role} {data : Bytes} (h : ¬role.SpellsDefault data) :
    role.dropDefault data = data := by
  cases role with
  | address => exact if_neg h
  | _ => rfl

theorem Role.not_spellsDefault_dropDefault (role : Role) (data : Bytes) :
    ¬role.SpellsDefault (role.dropDefault data) := by
  cases role with
  | address => exact Address.not_spellsDefault_dropDefault data
  | _ => exact id

/-- An identifier without a default entrypoint has the same text. -/
theorem Role.ofBytes_dropDefault {role : Role} {data : Bytes} {text : String}
    (h : role.ofBytes data = .ok text) : role.ofBytes (role.dropDefault data) = .ok text := by
  cases role with
  | address => exact Address.ofBytesWith_dropDefault h
  | _ => exact h

/-- **The bytes of a text have no default entrypoint.** -/
theorem Role.not_spellsDefault_of_toBytesWith {role : Role} {text : String} {data : Bytes}
    (h : role.toBytesWith sum text = .ok data) : ¬role.SpellsDefault data := by
  cases role with
  | address => exact Address.not_spellsDefault_of_toBytesWith h
  | _ => exact id

/-- **The bytes of an identifier are read back from its text**, whatever the checksum is. -/
theorem Role.toBytesWith_of_ofBytesWith {role : Role} {data : Bytes} {text : String}
    (h : role.ofBytesWith sum data = .ok text) :
    role.toBytesWith sum text = .ok (role.dropDefault data) := by
  cases role with
  | address => exact Address.toBytesWith_of_ofBytesWith h
  | keyHash => exact KeyHash.toBytesWith_of_ofBytesWith h
  | key => exact PublicKey.toBytesWith_of_ofBytesWith h
  | signature => exact Signature.toBytesWith_of_ofBytesWith h
  | chainId => exact decodeKindWith_eq_ok_iff.2 h
  | rollupAddress => exact RollupAddress.toBytesWith_of_ofBytesWith h

/-- With the checksum of the program: the text of an identifier has its bytes. -/
theorem Role.toBytes_of_ofBytes {role : Role} {data : Bytes} {text : String}
    (h : role.ofBytes data = .ok text) : role.toBytes text = .ok (role.dropDefault data) :=
  toBytesWith_of_ofBytesWith h

end Micheline.Identifier

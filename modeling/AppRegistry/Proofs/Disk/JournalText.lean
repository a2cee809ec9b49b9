import AppRegistry.Disk.Journal
import AppRegistry.Proofs.Key.Text

/-!
# Reading a journal back

A journal that was written whole is read back as the entries it was written from
(`readJournal?_journalBytes`). The keys come back because the text of a key is read as the key
(`Key.parse_text`).
-/

namespace AppRegistry.Disk

theorem decode?_encode_entry (e : JournalEntry) : decode? (encode e) = some e := by
  have hk : (decode? (.string e.key.text) : Option Key) = some e.key := decode?_encode_key e.key
  show (do
    let f ← Json.readFields? ["key", "write", "replaces"]
      (.object [("key", .string e.key.text), ("write", .bool e.write),
        ("replaces", .bool e.replaces)])
    pure (JournalEntry.mk (← f.required "key") (← f.required "write") (← f.required "replaces"))) =
      some e
  simp [Json.readFields?, Json.FieldValues.required, Json.FieldValues.value?, List.lookup_cons, hk]
  rfl

theorem hasWords_encode (entries : List JournalEntry) : (encode entries).HasWords := by
  show Json.ItemsHaveWords (entries.map encode)
  induction entries with
  | nil => trivial
  | cons e r ih => exact ⟨⟨trivial, trivial, trivial, trivial⟩, ih⟩

theorem decode?_encode_entries (entries : List JournalEntry) :
    decode? (encode entries) = some entries := by
  show (entries.map encode).mapM decode? = some entries
  induction entries with
  | nil => rfl
  | cons e r ih => simp [List.mapM_cons, decode?_encode_entry, ih]

/-- **A journal written is read back.** -/
theorem readJournal?_journalBytes (entries : List JournalEntry) :
    readJournal? (journalBytes entries) = some entries := by
  unfold readJournal? journalBytes
  rw [Json.readRecordBytes?_compact (hasWords_encode entries)]
  exact decode?_encode_entries entries

-- The string of a field that entries do not have may hold bytes that encode no text.
example : readJournal? ("[\x7b\"key\":\"a\",\"write\":true,\"replaces\":true,\"x\":\"".toUTF8 ++
    ⟨#[0xFF]⟩ ++ "\"\x7d]".toUTF8) = some [⟨⟨["a"], by decide⟩, true, true⟩] := by decide +kernel

-- The string of a key may not.
example : readJournal? ("[[\"a".toUTF8 ++ ⟨#[0xFF]⟩ ++ "\",true,true]]".toUTF8) = none := by
  decide +kernel

end AppRegistry.Disk

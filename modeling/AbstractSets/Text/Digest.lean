/-!
# Digests of text

Hashes of texts and of sequences of texts. Each character is mixed into a 64-bit word in
turn, so equal texts have equal digests; nothing else is asked of them.
-/

namespace AbstractSets.Digest

def start : UInt64 := 14695981039346656037

def mix (h w : UInt64) : UInt64 := (h ^^^ w) * 1099511628211

/-- Mix a text into a digest. The mark at its end keeps neighbouring texts apart. -/
def addText (h : UInt64) (s : String) : UInt64 :=
  mix (s.toList.foldl (fun h c => mix h c.val.toUInt64) h) 0xffffffff

def ofText (s : String) : UInt64 := addText start s

def ofTexts (ss : List String) : UInt64 := ss.foldl addText start

end AbstractSets.Digest

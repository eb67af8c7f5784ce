/-!
# The web

What requests are answered with. Every address has replies that are given in turn, the last one
again and again; addresses without replies share one. All addresses asked for are kept.
-/

namespace SheetPackages

/-- What comes back for a request. -/
inductive Reply where
  | silence
  /-- A status whose body cannot be read. -/
  | broken (status : Nat)
  | full (status : Nat) (body : ByteArray)

structure Web where
  replies : List (String × Reply) := []
  otherwise : Reply := .silence
  /-- The addresses asked for, latest one first. -/
  asked : List String := []

namespace Web

/-- The replies to an address, in the order in which they are given. -/
def repliesTo (w : Web) (address : String) : List Reply :=
  (w.replies.filter (·.1 = address)).map Prod.snd

/-- The reply to the next request for an address. -/
def next (w : Web) (address : String) : Reply :=
  let replies := w.repliesTo address
  (replies[w.asked.count address]?.or replies.getLast?).getD w.otherwise

def ask (w : Web) (address : String) : Reply × Web :=
  (w.next address, { w with asked := address :: w.asked })

end Web

end SheetPackages

import ReceiptPrinter.Style.Basic

namespace ReceiptPrinter

inductive Notice where
  | initialized
  | drawerOpened
  | paperCut
  | qrGenerated
deriving DecidableEq

def Notice.message : Notice → Text
  | .initialized => "Printer Initialized".toList
  | .drawerOpened => "Cash Drawer Opened".toList
  | .paperCut => "Paper Cut".toList
  | .qrGenerated => "QR Code Generated".toList

inductive Token where
  | text (content : Text) (style : Style)
  | qr (size : UInt32) (style : Style)
deriving DecidableEq

namespace Token

def style : Token → Style
  | .text _ s => s
  | .qr _ s => s

def content? : Token → Option Text
  | .text c _ => some c
  | .qr _ _ => none

end Token

structure Printout where
  tokens : List Token
  log : List Notice
deriving DecidableEq

namespace Printout

def isEmpty (p : Printout) : Bool := p.tokens.isEmpty && p.log.isEmpty

def text (p : Printout) : Text := (p.tokens.filterMap Token.content?).flatten

def messages (p : Printout) : List Text := p.log.map Notice.message

end Printout

end ReceiptPrinter

import ReceiptPrinter.Main
import ReceiptPrinter.Service.Basic
import ReceiptPrinter.Proofs.Script.Pieces
import ReceiptPrinter.Proofs.Script.LastWrite
import ReceiptPrinter.Proofs.Script.Joining
import ReceiptPrinter.Proofs.Script.Writing
import ReceiptPrinter.Proofs.Script.Events
import ReceiptPrinter.Proofs.Printout.Rereading
import ReceiptPrinter.Proofs.Script.Tokens
import ReceiptPrinter.Proofs.Service.Active
import ReceiptPrinter.Proofs.Service.Parse
import ReceiptPrinter.Proofs.Script.Rewriting
import ReceiptPrinter.Proofs.Preview.Joining
import ReceiptPrinter.Proofs.CommandLine.Printing
import ReceiptPrinter.Proofs.Preview.Contents
import ReceiptPrinter.Proofs.Script.Modes
import ReceiptPrinter.Proofs.Script.Saturation
import ReceiptPrinter.Proofs.Style.Sizes
import ReceiptPrinter.Proofs.Script.Bytes
import ReceiptPrinter.Proofs.Service.Naming
import ReceiptPrinter.Proofs.Service.FontSize
import ReceiptPrinter.Proofs.Printout.Members
import ReceiptPrinter.Proofs.Service.Posting
import ReceiptPrinter.Proofs.Service.Samples

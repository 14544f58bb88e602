import Blubos.Allocator.Augmentation
import Blubos.Allocator.BlackRoot
import Blubos.Allocator.Boxes
import Blubos.Allocator.Canonical
import Blubos.Allocator.Conservation
import Blubos.Allocator.FrontEnds
import Blubos.Allocator.HandOver
import Blubos.Allocator.KernelMemory
import Blubos.Allocator.Paging
import Blubos.Allocator.Provision
import Blubos.Allocator.Recursion
import Blubos.Allocator.RoundTrip
import Blubos.Allocator.Search
import Blubos.Bitstruct.Input
import Blubos.Bitstruct.Record
import Blubos.Bitstruct.WithFields
import Blubos.Foundation.ByteMemory
import Blubos.Foundation.Trace
import Blubos.Interrupts.Timer
import Blubos.Pci.Bars
import Blubos.Pci.Enable
import Blubos.Pci.Enumeration
import Blubos.Pci.Value
import Blubos.Screen.FontRenderer
import Blubos.Screen.Framebuffer
import Blubos.Screen.RenderLoop
import Blubos.Serial.Console
import Blubos.Xhci.CommandProtocol
import Blubos.Xhci.Controller
import Blubos.Xhci.Dcbaa
import Blubos.Xhci.SlotTags
import Blubos.Xhci.Startup
